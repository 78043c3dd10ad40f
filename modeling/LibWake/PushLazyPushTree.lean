import LibWake.PushLazyPushFlood

/-!
# Broadcast over a spanning tree

The broadcast from a state whose uncut links form a spanning tree.  A copy is
only ever sent to a vertex which no copy was sent to before: a second one would
close a cycle of uncut links.  So no link is pruned, the cut links stay the same
whatever the order of the notices, and every vertex but the root gets one copy.
-/

namespace LibWake
namespace PushLazyPush

open GrownTree

variable {V : Type*}

/-! ## Copies -/

/-- The copies among some packets, each as a link from its target to its source. -/
def copyLinks (packets : List (Packet V)) : List (V × V) :=
  packets.filterMap fun
    | .gossip source target => some (target, source)
    | .notice _ _ => none
    | .prune _ _ => none

@[simp] theorem copyLinks_append (front back : List (Packet V)) :
    copyLinks (front ++ back) = copyLinks front ++ copyLinks back :=
  List.filterMap_append

@[simp] theorem copyLinks_gossip (u v : V) (rest : List (Packet V)) :
    copyLinks (.gossip u v :: rest) = (v, u) :: copyLinks rest := rfl

@[simp] theorem copyLinks_notice (u v : V) (rest : List (Packet V)) :
    copyLinks (.notice u v :: rest) = copyLinks rest := rfl

theorem mem_copyLinks {packets : List (Packet V)} {target source : V} :
    (target, source) ∈ copyLinks packets ↔ .gossip source target ∈ packets := by
  rw [copyLinks, List.mem_filterMap]
  constructor
  · rintro ⟨packet, hmem, hlink⟩
    cases packet with
    | gossip u v =>
        obtain ⟨rfl, rfl⟩ := Prod.mk.inj (Option.some.inj hlink)
        exact hmem
    | notice u v => cases hlink
    | prune u v => cases hlink
  · exact fun hmem => ⟨_, hmem, rfl⟩

theorem copyLinks_push (s : State V) (v : V) (targets : List V) :
    copyLinks (push s v targets) =
      (targets.filter fun w => !s.cut v w).map fun w => (w, v) := by
  induction targets with
  | nil => rfl
  | cons w rest ih =>
      rw [push] at ih ⊢
      cases hcut : s.cut v w with
      | true => simp [hcut, ih]
      | false => simp [hcut, ih]

theorem prune_not_mem_push (s : State V) (v a b : V) (targets : List V) :
    Packet.prune a b ∉ push s v targets := by
  intro hmem
  obtain ⟨w, _, heq⟩ := List.mem_map.mp hmem
  split_ifs at heq

theorem gossip_mem_push {s : State V} {v a b : V} {targets : List V} :
    Packet.gossip a b ∈ push s v targets ↔ a = v ∧ b ∈ targets ∧ s.cut v b = false := by
  rw [← mem_copyLinks, copyLinks_push]
  simp only [List.mem_map, List.mem_filter, Bool.not_eq_true', Prod.mk.injEq]
  constructor
  · rintro ⟨w, ⟨hw, hcut⟩, rfl, rfl⟩
    exact ⟨rfl, hw, hcut⟩
  · rintro ⟨rfl, hw, hcut⟩
    exact ⟨b, ⟨hw, hcut⟩, rfl, rfl⟩

/-! ## The invariant -/

/-- Nothing is known, the ends of every link agree, and the uncut links are a
spanning tree. -/
structure State.TreeCut (S : Finset V) (adj : V → List V) (s : State V) : Prop where
  silent : s.Silent
  agree : ∀ v w, w ∈ adj v → s.cut v w = s.cut w v
  isTree : (uncutGraph S adj s).IsTree

/-- A broadcast over the tree of `start`: the copies sent so far grow a tree, and
each of them is in flight or was the first one at its target. -/
structure Steady (adj : V → List V) (root : V) (start s : State V) : Prop where
  cut : s.cut = start.cut
  grown : Grown root (copyLinks s.sent).reverse
  accounted : (copyLinks s.inFlight ++ s.links).Perm (copyLinks s.sent)
  informed_iff : ∀ v, s.informed v = true ↔ v ∈ covered root s.links
  sent_of_inFlight : s.inFlight ⊆ s.sent
  unpruned : ∀ v w, .prune v w ∉ s.sent
  along : ∀ u v, .gossip u v ∈ s.sent →
    v ∈ adj u ∧ start.cut u v = false ∧ s.informed u = true
  pushed : ∀ v w, s.informed v = true → w ∈ adj v → start.cut v w = false →
    .gossip v w ∈ s.sent ∨ .gossip w v ∈ s.sent

variable {adj : V → List V} {root : V} {S : Finset V} {start s next : State V} {k : ℕ}

theorem mem_covered_reverse {links : List (V × V)} {v : V} :
    v ∈ covered root links.reverse ↔ v = root ∨ ∃ u, (v, u) ∈ links := by
  simp [covered]

theorem steady_originate [DecidableEq V] (hadj : Neighbours S adj)
    (htree : start.TreeCut S adj) (root : V) :
    Steady adj root start (originate adj start root) := by
  have hsent : (originate adj start root).sent =
      push (start.inform root) root (adj root) := by
    change start.sent ++ push (start.inform root) root (adj root) = _
    rw [htree.silent.sent, List.nil_append]
  have hflight : (originate adj start root).inFlight =
      push (start.inform root) root (adj root) := by
    change start.inFlight ++ push (start.inform root) root (adj root) = _
    rw [htree.silent.inFlight, List.nil_append]
  have hlinks : (originate adj start root).links = [] := htree.silent.links
  have hinformed : ∀ v, (originate adj start root).informed v = true ↔ v = root := by
    intro v
    change Function.update start.informed root true v = true ↔ _
    by_cases hv : v = root
    · simp [hv]
    · simp [hv, htree.silent.informed v]
  refine ⟨rfl, ?_, ?_, ?_, ?_, ?_, ?_, ?_⟩
  · rw [hsent, copyLinks_push, ← List.map_reverse, ← List.append_nil (List.map _ _)]
    refine Grown.attach_all .bare List.mem_cons_self ?_ ?_
    · exact List.nodup_reverse.mpr ((hadj.nodup root).filter _)
    · intro w hw hcovered
      obtain rfl : w = root := by simpa [covered] using hcovered
      exact hadj.irrefl w (List.mem_of_mem_filter (List.mem_reverse.mp hw))
  · rw [hsent, hflight, hlinks, List.append_nil]
  · intro v
    rw [hinformed, hlinks, covered, List.map_nil, List.mem_singleton]
  · rw [hsent, hflight]
    exact List.Subset.refl _
  · intro v w
    rw [hsent]
    exact prune_not_mem_push _ _ _ _ _
  · intro u v hmem
    rw [hsent] at hmem
    obtain ⟨rfl, hv, hcut⟩ := gossip_mem_push.mp hmem
    exact ⟨hv, hcut, (hinformed u).mpr rfl⟩
  · intro v w hv hw hcut
    obtain rfl := (hinformed v).mp hv
    rw [hsent]
    exact .inl (gossip_mem_push.mpr ⟨rfl, hw, hcut⟩)

theorem informed_accept [DecidableEq V] (adj : V → List V) (s : State V) (u v w : V) :
    (accept adj s u v).informed w = true ↔ w = v ∨ s.informed w = true := by
  change Function.update s.informed v true w = true ↔ _
  by_cases hwv : w = v
  · simp [hwv]
  · simp [hwv]

/-- A consumed copy becomes a link, and fresh copies are added on both sides. -/
theorem perm_consumed {α : Type*} {copy : α} {rest links sent : List α}
    (hall : (copy :: (rest ++ links)).Perm sent) (fresh : List α) :
    (rest ++ fresh ++ copy :: links).Perm (sent ++ fresh) := by
  calc
    rest ++ fresh ++ copy :: links
      |>.Perm (copy :: (rest ++ fresh ++ links)) := List.perm_middle
    _ |>.Perm (copy :: (rest ++ links) ++ fresh) := by
      rw [List.cons_append, List.append_assoc, List.append_assoc]
      exact (List.perm_append_comm.append_left _).cons _
    _ |>.Perm (sent ++ fresh) := hall.append_right _

namespace Steady

theorem targets_nodup (hsteady : Steady adj root start s) :
    (root :: (copyLinks s.sent).map Prod.fst).Nodup := by
  have hnodup := hsteady.grown.covered_nodup
  rw [covered, List.map_reverse] at hnodup
  exact (List.Perm.cons root (List.reverse_perm _)).nodup_iff.mp hnodup

theorem within (hadj : Neighbours S adj) (hroot : root ∈ S)
    (hsteady : Steady adj root start s) :
    ∀ v ∈ covered root (copyLinks s.sent).reverse, v ∈ S := by
  intro v hv
  rcases mem_covered_reverse.mp hv with rfl | ⟨u, hlink⟩
  · exact hroot
  · exact hadj.target_mem (hsteady.along u v (mem_copyLinks.mp hlink)).1

theorem linkGraph_le (hsteady : Steady adj root start s) :
    linkGraph S (copyLinks s.sent).reverse ≤ uncutGraph S adj start := by
  intro a b hab
  obtain ⟨hne, hlink⟩ := (SimpleGraph.fromRel_adj _ _ _).mp hab
  refine (SimpleGraph.fromRel_adj _ _ _).mpr ⟨hne, ?_⟩
  rw [List.mem_reverse, List.mem_reverse, mem_copyLinks, mem_copyLinks] at hlink
  rcases hlink with hba | hab
  · exact .inr ⟨(hsteady.along _ _ hba).1, (hsteady.along _ _ hba).2.1⟩
  · exact .inl ⟨(hsteady.along _ _ hab).1, (hsteady.along _ _ hab).2.1⟩

/-! ## One delivery -/

section Copy

variable {u v : V} {rest : List (Packet V)}

/-- A copy in flight is the first one at its target. -/
theorem new_of_copy (hsteady : Steady adj root start s)
    (hperm : (.gossip u v :: rest).Perm s.inFlight) : s.informed v = false := by
  have htargets := hsteady.targets_nodup
  have hall : ((v, u) :: (copyLinks rest ++ s.links)).Perm (copyLinks s.sent) :=
    ((hperm.filterMap _).append_right s.links).trans hsteady.accounted
  have hnodup := ((hall.map Prod.fst).cons root).nodup_iff.mpr htargets
  rw [List.map_cons, List.map_append, List.nodup_cons, List.nodup_cons] at hnodup
  rw [Bool.eq_false_iff, Ne, hsteady.informed_iff]
  intro hcovered
  rcases List.mem_cons.mp hcovered with rfl | hchild
  · exact hnodup.1 List.mem_cons_self
  · exact hnodup.2.1 (List.mem_append_right _ hchild)

/-- No copy was sent yet to a vertex which the copy in flight makes its target
pass the message on to: it would close a cycle. -/
theorem not_covered_of_target (hadj : Neighbours S adj) (htree : start.TreeCut S adj)
    (hroot : root ∈ S) (hsteady : Steady adj root start s)
    (hcopy : .gossip u v ∈ s.sent) (hnew : s.informed v = false) {w : V}
    (hw : w ∈ adj v) (hwu : w ≠ u) (hcut : start.cut v w = false) :
    w ∉ covered root (copyLinks s.sent).reverse := by
  intro hcovered
  have hwithin := hsteady.within hadj hroot
  have hv : v ∈ covered root (copyLinks s.sent).reverse :=
    mem_covered_reverse.mpr (.inr ⟨u, mem_copyLinks.mpr hcopy⟩)
  have hedge : (uncutGraph S adj start).Adj ⟨v, hwithin v hv⟩
      ⟨w, hwithin w hcovered⟩ := by
    refine (SimpleGraph.fromRel_adj _ _ _).mpr ⟨?_, .inl ⟨hw, hcut⟩⟩
    intro heq
    obtain rfl : v = w := congrArg Subtype.val heq
    exact hadj.irrefl v hw
  have hlink := hsteady.grown.link_of_adj hwithin htree.isTree.isAcyclic
    hsteady.linkGraph_le hedge hv hcovered
  rw [List.mem_reverse, List.mem_reverse, mem_copyLinks] at hlink
  rcases hlink with hparent | hchild
  · -- `v` got its only copy from `u`
    have hsame : (v, w) = (v, u) :=
      List.inj_on_of_nodup_map (List.nodup_cons.mp hsteady.targets_nodup).2
        (mem_copyLinks.mpr hparent) (mem_copyLinks.mpr hcopy) rfl
    exact hwu (congrArg Prod.snd hsame)
  · -- `v` has sent nothing yet
    rw [(hsteady.along v w (mem_copyLinks.mp hchild)).2.2] at hnew
    cases hnew

variable [DecidableEq V]

theorem accepted (hadj : Neighbours S adj) (htree : start.TreeCut S adj)
    (hroot : root ∈ S) (hsteady : Steady adj root start s)
    (hperm : (.gossip u v :: rest).Perm s.inFlight) :
    Steady adj root start (accept adj { s with inFlight := rest } u v) := by
  have hcopy : .gossip u v ∈ s.sent :=
    hsteady.sent_of_inFlight (hperm.subset List.mem_cons_self)
  have hnew := hsteady.new_of_copy hperm
  obtain ⟨hv, hcutuv, -⟩ := hsteady.along u v hcopy
  have hcutvu : start.cut v u = false := (htree.agree u v hv).symm.trans hcutuv
  set accepted := ({ s with inFlight := rest }.inform v).setCut v u false
    with haccepted
  have hcut : accepted.cut = start.cut := by
    funext a b
    rw [haccepted, cut_setCut]
    split_ifs with hends
    · rw [hends.1, hends.2, hcutvu]
    · exact congrFun (congrFun hsteady.cut a) b
  set targets := (adj v).filter fun w => w ≠ u with htargets
  have hmem : ∀ w, w ∈ targets ↔ w ∈ adj v ∧ w ≠ u := by
    intro w
    rw [htargets, List.mem_filter, decide_eq_true_eq]
  have hinformed := informed_accept adj { s with inFlight := rest } u v
  have hsent : (accept adj { s with inFlight := rest } u v).sent =
      s.sent ++ push accepted v targets := rfl
  have hpushed : ∀ w, .gossip v w ∈ push accepted v targets ↔
      (w ∈ adj v ∧ w ≠ u) ∧ start.cut v w = false := by
    intro w
    rw [gossip_mem_push, hmem, hcut]
    exact and_iff_right rfl
  refine ⟨hcut, ?_, ?_, ?_, ?_, ?_, ?_, ?_⟩
  · rw [hsent, copyLinks_append, List.reverse_append, copyLinks_push,
      ← List.map_reverse]
    refine hsteady.grown.attach_all ?_ ?_ ?_
    · exact mem_covered_reverse.mpr (.inr ⟨u, mem_copyLinks.mpr hcopy⟩)
    · exact List.nodup_reverse.mpr (((hadj.nodup v).filter _).filter _)
    · intro w hw
      obtain ⟨hw, huncut⟩ := List.mem_filter.mp (List.mem_reverse.mp hw)
      obtain ⟨hwv, hwu⟩ := (hmem w).mp hw
      rw [hcut, Bool.not_eq_true'] at huncut
      exact hsteady.not_covered_of_target hadj htree hroot hcopy hnew hwv hwu huncut
  · change (copyLinks (rest ++ push accepted v targets) ++ (v, u) :: s.links).Perm _
    rw [hsent, copyLinks_append, copyLinks_append]
    exact perm_consumed (((hperm.filterMap _).append_right s.links).trans hsteady.accounted) _
  · intro w
    rw [hinformed, hsteady.informed_iff]
    exact mem_covered_cons.symm
  · change rest ++ push accepted v targets ⊆ s.sent ++ push accepted v targets
    exact List.append_subset.mpr
      ⟨fun packet hrest => List.mem_append_left _ (hsteady.sent_of_inFlight
        (hperm.subset (List.mem_cons_of_mem _ hrest))),
        List.subset_append_right _ _⟩
  · intro a b
    rw [hsent, List.mem_append, not_or]
    exact ⟨hsteady.unpruned a b, prune_not_mem_push _ _ _ _ _⟩
  · intro a b hab
    rw [hsent] at hab
    rcases List.mem_append.mp hab with hold | hfresh
    · obtain ⟨hb, hcutab, ha⟩ := hsteady.along a b hold
      exact ⟨hb, hcutab, (hinformed a).mpr (.inr ha)⟩
    · obtain rfl := (gossip_mem_push.mp hfresh).1
      obtain ⟨⟨hb, -⟩, hcutab⟩ := (hpushed b).mp hfresh
      exact ⟨hb, hcutab, (hinformed a).mpr (.inl rfl)⟩
  · intro a b ha hb hcutab
    rw [hsent]
    rcases (hinformed a).mp ha with rfl | hold
    · by_cases hbu : b = u
      · subst hbu
        exact .inr (List.mem_append_left _ hcopy)
      · exact .inl (List.mem_append_right _ ((hpushed b).mpr ⟨⟨hb, hbu⟩, hcutab⟩))
    · exact (hsteady.pushed a b hold hb hcutab).imp (List.mem_append_left _)
        (List.mem_append_left _)

end Copy

theorem deliver [DecidableEq V] (hadj : Neighbours S adj) (htree : start.TreeCut S adj)
    (hroot : root ∈ S) (hsteady : Steady adj root start s)
    (hdeliver : PushLazyPush.deliver adj s k = some next) :
    Steady adj root start next := by
  obtain ⟨packet, rest, hperm, rfl⟩ := deliver_cases hdeliver
  cases packet with
  | gossip u v =>
      have hnew := hsteady.new_of_copy hperm
      rw [receive, if_neg (Bool.eq_false_iff.mp hnew)]
      exact hsteady.accepted hadj htree hroot hperm
  | notice u v =>
      have haccounted := ((hperm.filterMap _).append_right s.links).trans
        hsteady.accounted
      exact ⟨hsteady.cut, hsteady.grown, haccounted, hsteady.informed_iff,
        fun packet hrest => hsteady.sent_of_inFlight
          (hperm.subset (List.mem_cons_of_mem _ hrest)),
        hsteady.unpruned, hsteady.along, hsteady.pushed⟩
  | prune u v =>
      exact absurd (hsteady.sent_of_inFlight (hperm.subset List.mem_cons_self))
        (hsteady.unpruned u v)

theorem run [DecidableEq V] (hadj : Neighbours S adj) (htree : start.TreeCut S adj)
    (hroot : root ∈ S) (hsteady : Steady adj root start s) {labels : List ℕ}
    {final : State V} (hrun : (deliveries adj).run s labels = some final) :
    Steady adj root start final :=
  (deliveries adj).run_invariant
    (fun _ _ _ hgood hstep => Steady.deliver hadj htree hroot hgood hstep) hsteady hrun

/-! ## The end -/

section Quiet

variable (hsteady : Steady adj root start s) (hquiet : s.inFlight = [])

include hsteady hquiet

theorem links_perm : s.links.Perm (copyLinks s.sent) := by
  have haccounted := hsteady.accounted
  rwa [hquiet] at haccounted

theorem informed_of_adj {v w : V} (hv : s.informed v = true) (hw : w ∈ adj v)
    (hcut : start.cut v w = false) : s.informed w = true := by
  rcases hsteady.pushed v w hv hw hcut with hto | hfrom
  · have hlink := (hsteady.links_perm hquiet).symm.subset (mem_copyLinks.mpr hto)
    exact (hsteady.informed_iff w).mpr
      (List.mem_cons_of_mem _ (List.mem_map_of_mem (f := Prod.fst) hlink))
  · exact (hsteady.along w v hfrom).2.2

variable (hadj : Neighbours S adj) (htree : start.TreeCut S adj) (hroot : root ∈ S)

include hadj htree hroot

theorem informed_all {v : V} (hv : v ∈ S) : s.informed v = true := by
  obtain ⟨walk⟩ := htree.isTree.connected.preconnected ⟨root, hroot⟩ ⟨v, hv⟩
  have hstart : s.informed root = true :=
    (hsteady.informed_iff root).mpr List.mem_cons_self
  have hwalk : ∀ {x y : {v // v ∈ S}}, (uncutGraph S adj start).Walk x y →
      s.informed x.1 = true → s.informed y.1 = true := by
    intro x y walk
    induction walk with
    | nil => exact id
    | cons hstep _ ih =>
        intro hx
        rcases ((SimpleGraph.fromRel_adj _ _ _).mp hstep).2 with hmem | hmem
        · exact ih (hsteady.informed_of_adj hquiet hx hmem.1 hmem.2)
        · have hback := hadj.symm hmem.1
          exact ih (hsteady.informed_of_adj hquiet hx hback
            ((htree.agree _ _ hback).trans hmem.2))
  exact hwalk walk hstart

theorem covers (v : V) : v ∈ S ↔ v ∈ covered root (copyLinks s.sent).reverse := by
  refine ⟨fun hv => ?_, hsteady.within hadj hroot v⟩
  have hcovered := (hsteady.informed_iff v).mp
    (hsteady.informed_all hquiet hadj htree hroot hv)
  rcases List.mem_cons.mp hcovered with rfl | hchild
  · exact List.mem_cons_self
  · obtain ⟨⟨child, parent⟩, hlink, rfl⟩ := List.mem_map.mp hchild
    exact mem_covered_reverse.mpr
      (.inr ⟨parent, (hsteady.links_perm hquiet).subset hlink⟩)

theorem copies_card : (copyLinks s.sent).length + 1 = S.card := by
  classical
  have hset : S = (covered root (copyLinks s.sent).reverse).toFinset := by
    ext v
    rw [List.mem_toFinset]
    exact hsteady.covers hquiet hadj htree hroot v
  rw [hset, List.toFinset_card_of_nodup hsteady.grown.covered_nodup, covered,
    List.length_cons, List.length_map, List.length_reverse]

theorem count_first [DecidableEq V] {v : V} (hv : v ∈ S) :
    (s.links.map Prod.fst).count v = if v = root then 0 else 1 := by
  have hcovered := (hsteady.covers hquiet hadj htree hroot v).mp hv
  have hcount := hsteady.grown.count_children v
  rw [List.map_reverse, List.count_reverse,
    ← ((hsteady.links_perm hquiet).map Prod.fst).count_eq] at hcount
  rw [hcount]
  by_cases hvroot : v = root
  · rw [if_neg fun hand => hand.2 hvroot, if_pos hvroot]
  · rw [if_pos ⟨hcovered, hvroot⟩, if_neg hvroot]

end Quiet

end Steady

end PushLazyPush
end LibWake
