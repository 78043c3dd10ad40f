import LibWake.PushLazyPush

/-!
# Flooding grows a spanning tree

The broadcast from a state without cut links.  A link is redundant when both its
ends are informed and neither got its first copy over it.  Redundant links are
on their way to being cut at both ends; over every other link exactly the copies
which are still needed are in flight.
-/

namespace LibWake
namespace PushLazyPush

open GrownTree

variable {V : Type*}

/-! ## The invariant -/

/-- Both ends know the message, and neither from the other. -/
structure Redundant (s : State V) (v w : V) : Prop where
  informed : s.informed v = true
  informed_other : s.informed w = true
  not_link : (v, w) ∉ s.links
  not_link_other : (w, v) ∉ s.links

theorem Redundant.symm {s : State V} {v w : V} (hredundant : Redundant s v w) :
    Redundant s w v :=
  ⟨hredundant.informed_other, hredundant.informed, hredundant.not_link_other,
    hredundant.not_link⟩

theorem Redundant.ends_ne {s : State V} {u v a b : V} (hredundant : Redundant s u v)
    (hneeded : ¬ Redundant s a b) : ¬ (a = u ∧ b = v) := by
  rintro ⟨rfl, rfl⟩
  exact hneeded hredundant

variable [DecidableEq V]

/-- The end `v` of a link to `w` which may still belong to the tree. -/
structure Needed (s : State V) (v w : V) : Prop where
  uncut : s.cut v w = false
  unpruned : .prune v w ∉ s.inFlight
  copies : s.inFlight.count (.gossip v w) =
    if s.informed v = true ∧ s.informed w = false then 1 else 0

/-- The state of a broadcast over uncut links. -/
structure Flooding (adj : V → List V) (root : V) (s : State V) : Prop where
  grown : Grown root s.links
  along : ∀ child parent, (child, parent) ∈ s.links → child ∈ adj parent
  informed_iff : ∀ v, s.informed v = true ↔ v ∈ covered root s.links
  routed : s.Routed adj
  no_notice : ∀ v w, .notice v w ∉ s.inFlight
  needed : ∀ v w, w ∈ adj v → ¬ Redundant s v w → Needed s v w
  redundant : ∀ v w, w ∈ adj v → Redundant s v w →
    .gossip v w ∈ s.inFlight ∨ s.cut w v = true

variable {adj : V → List V} {root : V} {S : Finset V} {s next : State V} {k : ℕ}

omit [DecidableEq V] in
theorem not_redundant_of_new {v : V} (hnew : s.informed v = false) (w : V) :
    ¬ Redundant s v w := fun hredundant => by
  rw [hredundant.informed] at hnew
  cases hnew

theorem Flooding.uncut_of_new (hflood : Flooding adj root s) {v : V}
    (hnew : s.informed v = false) (w : V) (hw : w ∈ adj v) : s.cut v w = false :=
  (hflood.needed v w hw (not_redundant_of_new hnew w)).uncut

/-! ## The copies which are passed on -/

theorem count_gossip_map (targets : List V) (hnodup : targets.Nodup) (v a b : V) :
    (targets.map (Packet.gossip v)).count (.gossip a b) =
      if a = v ∧ b ∈ targets then 1 else 0 := by
  by_cases ha : a = v
  · subst ha
    have hinjective : Function.Injective (Packet.gossip a) := fun x y heq => by
      injection heq
    rw [List.count_map_of_injective _ _ hinjective, hnodup.count]
    simp
  · rw [if_neg fun hand => ha hand.1, List.count_eq_zero]
    intro hmem
    obtain ⟨w, _, heq⟩ := List.mem_map.mp hmem
    injection heq with hsource
    exact ha hsource.symm

omit [DecidableEq V] in
theorem notice_not_mem_map (targets : List V) (v a b : V) :
    Packet.notice a b ∉ targets.map (Packet.gossip v) := fun hmem => by
  obtain ⟨w, _, heq⟩ := List.mem_map.mp hmem
  cases heq

omit [DecidableEq V] in
theorem prune_not_mem_map (targets : List V) (v a b : V) :
    Packet.prune a b ∉ targets.map (Packet.gossip v) := fun hmem => by
  obtain ⟨w, _, heq⟩ := List.mem_map.mp hmem
  cases heq

/-! ## The start -/

/-- Nothing is known, and no link is cut. -/
structure State.Uncut (s : State V) (adj : V → List V) : Prop where
  silent : s.Silent
  uncut : ∀ v w, w ∈ adj v → s.cut v w = false

theorem flooding_originate (hadj : Neighbours S adj) (huncut : s.Uncut adj) :
    Flooding adj root (originate adj s root) := by
  have hpush : push (s.inform root) root (adj root) = (adj root).map (.gossip root) :=
    push_of_uncut (huncut.uncut root)
  have hflight : (originate adj s root).inFlight = (adj root).map (.gossip root) := by
    change s.inFlight ++ push (s.inform root) root (adj root) = _
    rw [huncut.silent.inFlight, List.nil_append, hpush]
  have hlinks : (originate adj s root).links = [] := huncut.silent.links
  have hinformed : ∀ v, (originate adj s root).informed v = true ↔ v = root := by
    intro v
    change Function.update s.informed root true v = true ↔ _
    by_cases hv : v = root
    · simp [hv]
    · simp [hv, huncut.silent.informed v]
  have hnone : ∀ v w, w ∈ adj v → ¬ Redundant (originate adj s root) v w := by
    intro v w hw hredundant
    have hv := (hinformed v).mp hredundant.informed
    have hwroot := (hinformed w).mp hredundant.informed_other
    rw [hv, hwroot] at hw
    exact hadj.irrefl root hw
  refine ⟨?_, ?_, ?_, routed_originate huncut.silent root, ?_, ?_, ?_⟩
  · rw [hlinks]
    exact .bare
  · intro child parent hlink
    rw [hlinks] at hlink
    cases hlink
  · intro v
    rw [hinformed, hlinks, covered, List.map_nil, List.mem_singleton]
  · intro v w
    rw [hflight]
    exact notice_not_mem_map _ _ _ _
  · intro v w hw _
    refine ⟨huncut.uncut v w hw, ?_, ?_⟩
    · rw [hflight]
      exact prune_not_mem_map _ _ _ _
    · rw [hflight, count_gossip_map _ (hadj.nodup root)]
      refine if_congr ?_ rfl rfl
      rw [hinformed, ← Bool.not_eq_true, hinformed]
      constructor
      · rintro ⟨rfl, _⟩
        exact ⟨rfl, fun heq => hadj.irrefl v (heq ▸ hw)⟩
      · rintro ⟨rfl, _⟩
        exact ⟨rfl, hw⟩
  · intro v w hw hredundant
    exact absurd hredundant (hnone v w hw)

/-! ## One delivery -/

theorem Flooding.redundant_of_copy (hflood : Flooding adj root s) {u v : V}
    (hcopy : .gossip u v ∈ s.inFlight) (hinformed : s.informed v = true) :
    Redundant s u v := by
  by_contra hneeded
  have hcount := (hflood.needed u v (hflood.routed _ hcopy) hneeded).copies
  rw [if_neg fun hand => by rw [hinformed] at hand; cases hand.2] at hcount
  exact List.count_eq_zero.mp hcount hcopy

theorem Flooding.informed_of_copy (hflood : Flooding adj root s) {u v : V}
    (hcopy : .gossip u v ∈ s.inFlight) : s.informed u = true := by
  by_contra hnew
  rw [Bool.not_eq_true] at hnew
  have hcount := (hflood.needed u v (hflood.routed _ hcopy)
    (not_redundant_of_new hnew v)).copies
  rw [if_neg fun hand => by rw [hnew] at hand; cases hand.1] at hcount
  exact List.count_eq_zero.mp hcount hcopy

theorem Flooding.redundant_of_prune (hflood : Flooding adj root s) {u v : V}
    (hprune : .prune u v ∈ s.inFlight) : Redundant s u v := by
  by_contra hneeded
  exact (hflood.needed u v (hflood.routed _ hprune) hneeded).unpruned hprune

/-- A second copy cuts a redundant link at the end where it arrives. -/
theorem Flooding.duplicate (hadj : Neighbours S adj) (hflood : Flooding adj root s)
    {u v : V} {rest : List (Packet V)} (hperm : (.gossip u v :: rest).Perm s.inFlight)
    (hinformed : s.informed v = true) :
    Flooding adj root
      (({ s with inFlight := rest }.setCut v u true).send [.prune v u]) := by
  have hcopy : .gossip u v ∈ s.inFlight := hperm.subset List.mem_cons_self
  have hredundant := hflood.redundant_of_copy hcopy hinformed
  have hrest : ∀ packet ∈ rest, packet ∈ s.inFlight := fun packet hmem =>
    hperm.subset (List.mem_cons_of_mem _ hmem)
  have hkept : ∀ packet ∈ s.inFlight, packet ≠ .gossip u v → packet ∈ rest := by
    intro packet hmem hne
    exact (List.mem_cons.mp (hperm.symm.subset hmem)).resolve_left hne
  refine ⟨hflood.grown, hflood.along, hflood.informed_iff, ?_, ?_, ?_, ?_⟩
  · intro packet hmem
    rcases List.mem_append.mp hmem with hold | hnew
    · exact hflood.routed packet (hrest packet hold)
    · rw [List.mem_singleton.mp hnew]
      exact hadj.symm (hflood.routed _ hcopy)
  · intro a b hmem
    rcases List.mem_append.mp hmem with hold | hnew
    · exact hflood.no_notice a b (hrest _ hold)
    · cases List.mem_singleton.mp hnew
  · intro a b hb hneeded
    have hneeded : ¬ Redundant s a b := fun h => hneeded ⟨h.1, h.2, h.3, h.4⟩
    have hold := hflood.needed a b hb hneeded
    have hne := hredundant.ends_ne hneeded
    have hne' := hredundant.symm.ends_ne hneeded
    refine ⟨?_, ?_, ?_⟩
    · change (State.setCut { s with inFlight := rest } v u true).cut a b = false
      rw [cut_setCut, if_neg hne']
      exact hold.uncut
    · intro hmem
      rcases List.mem_append.mp hmem with hmem | hnew
      · exact hold.unpruned (hrest _ hmem)
      · injection List.mem_singleton.mp hnew with ha hb
        exact hne' ⟨ha, hb⟩
    · change (rest ++ [Packet.prune v u]).count (Packet.gossip a b) = _
      have hcount := hold.copies
      rw [← hperm.count_eq, List.count_cons_of_ne fun heq => by
        injection heq with ha hb; exact hne ⟨ha.symm, hb.symm⟩] at hcount
      rw [List.count_append, hcount, List.count_eq_zero.mpr fun hmem => by
        cases List.mem_singleton.mp hmem]
      rfl
  · intro a b hb hold
    change .gossip a b ∈ rest ++ [.prune v u] ∨
      (State.setCut { s with inFlight := rest } v u true).cut b a = true
    rw [cut_setCut]
    by_cases hab : b = v ∧ a = u
    · exact .inr (if_pos hab)
    · rw [if_neg hab]
      rcases hflood.redundant a b hb ⟨hold.1, hold.2, hold.3, hold.4⟩ with hmem | hcut
      · refine .inl (List.mem_append_left _ (hkept _ hmem fun heq => ?_))
        injection heq with ha hb
        exact hab ⟨hb, ha⟩
      · exact .inr hcut

theorem Flooding.pruned (hflood : Flooding adj root s) {u v : V}
    {rest : List (Packet V)} (hperm : (.prune u v :: rest).Perm s.inFlight) :
    Flooding adj root ({ s with inFlight := rest }.setCut v u true) := by
  have hredundant := hflood.redundant_of_prune (hperm.subset List.mem_cons_self)
  have hrest : ∀ packet ∈ rest, packet ∈ s.inFlight := fun packet hmem =>
    hperm.subset (List.mem_cons_of_mem _ hmem)
  refine ⟨hflood.grown, hflood.along, hflood.informed_iff, fun packet hmem =>
    hflood.routed packet (hrest packet hmem), fun a b hmem =>
    hflood.no_notice a b (hrest _ hmem), ?_, ?_⟩
  · intro a b hb hneeded
    have hneeded : ¬ Redundant s a b := fun h => hneeded ⟨h.1, h.2, h.3, h.4⟩
    have hold := hflood.needed a b hb hneeded
    have hne := hredundant.symm.ends_ne hneeded
    refine ⟨?_, fun hmem => hold.unpruned (hrest _ hmem), ?_⟩
    · rw [cut_setCut, if_neg hne]
      exact hold.uncut
    · have hcount := hold.copies
      rwa [← hperm.count_eq, List.count_cons_of_ne fun heq => by cases heq] at hcount
  · intro a b hb hold
    rw [cut_setCut]
    by_cases hab : b = v ∧ a = u
    · exact .inr (if_pos hab)
    · rw [if_neg hab]
      rcases hflood.redundant a b hb ⟨hold.1, hold.2, hold.3, hold.4⟩ with hmem | hcut
      · exact .inl ((List.mem_cons.mp (hperm.symm.subset hmem)).resolve_left fun heq => by
          cases heq)
      · exact .inr hcut

/-- What the first copy changes, when `v` has no cut link. -/
structure Accepted (adj : V → List V) (s : State V) (u v : V) (rest : List (Packet V))
    (after : State V) : Prop where
  informed : ∀ w, after.informed w = true ↔ w = v ∨ s.informed w = true
  cut : ∀ a b, after.cut a b = if a = v ∧ b = u then false else s.cut a b
  links : after.links = (v, u) :: s.links
  inFlight : after.inFlight = rest ++ ((adj v).filter fun w => w ≠ u).map (.gossip v)

theorem accepted_accept {u v : V} (huncut : ∀ w ∈ adj v, s.cut v w = false)
    (rest : List (Packet V)) :
    Accepted adj s u v rest (accept adj { s with inFlight := rest } u v) := by
  refine ⟨?_, fun a b => cut_setCut _ v u a b false, rfl, ?_⟩
  · intro w
    change Function.update s.informed v true w = true ↔ _
    by_cases hw : w = v
    · simp [hw]
    · simp [hw]
  · rw [← push_of_uncut (s := (({ s with inFlight := rest } : State V).inform v).setCut
      v u false)]
    · rfl
    · intro w hw
      rw [cut_setCut]
      split_ifs
      · rfl
      · exact huncut w (List.mem_filter.mp hw).1

section Accept

variable {u v : V} {rest : List (Packet V)} {after : State V}

theorem Accepted.redundant (haccepted : Accepted adj s u v rest after)
    (hnew : s.informed v = false) {a b : V} (hredundant : Redundant s a b) :
    Redundant after a b := by
  have hne : ∀ w, s.informed w = true → w ≠ v := by
    rintro w hw rfl
    rw [hw] at hnew
    cases hnew
  have hlink : ∀ x y, x ≠ v → (x, y) ∉ s.links → (x, y) ∉ after.links := by
    intro x y hx hnot hmem
    rw [haccepted.links] at hmem
    rcases List.mem_cons.mp hmem with heq | hold
    · exact hx (congrArg Prod.fst heq)
    · exact hnot hold
  exact ⟨(haccepted.informed a).mpr (.inr hredundant.1),
    (haccepted.informed b).mpr (.inr hredundant.2),
    hlink a b (hne a hredundant.1) hredundant.3,
    hlink b a (hne b hredundant.2) hredundant.4⟩

theorem Accepted.redundant_self (haccepted : Accepted adj s u v rest after)
    (hgrown : Grown root s.links) (hchild : v ∉ covered root s.links) {b : V}
    (hb : s.informed b = true) (hbu : b ≠ u) (hbv : b ≠ v) : Redundant after v b := by
  refine ⟨(haccepted.informed v).mpr (.inl rfl), (haccepted.informed b).mpr (.inr hb),
    ?_, ?_⟩
  · rw [haccepted.links]
    intro hmem
    rcases List.mem_cons.mp hmem with heq | hold
    · exact hbu (congrArg Prod.snd heq)
    · exact hchild (hgrown.ends_mem hold).1
  · rw [haccepted.links]
    intro hmem
    rcases List.mem_cons.mp hmem with heq | hold
    · exact hbv (congrArg Prod.fst heq)
    · exact hchild (hgrown.ends_mem hold).2

theorem Accepted.count (haccepted : Accepted adj s u v rest after)
    (hadj : Neighbours S adj) (hperm : (.gossip u v :: rest).Perm s.inFlight) (a b : V) :
    after.inFlight.count (.gossip a b) + (if a = u ∧ b = v then 1 else 0) =
      s.inFlight.count (.gossip a b) + if a = v ∧ b ∈ adj v ∧ b ≠ u then 1 else 0 := by
  rw [haccepted.inFlight, List.count_append,
    count_gossip_map _ ((hadj.nodup v).filter _), ← hperm.count_eq, List.count_cons]
  have hhead : (Packet.gossip u v == Packet.gossip a b) = true ↔ a = u ∧ b = v := by
    rw [beq_iff_eq, Packet.gossip.injEq, eq_comm, @eq_comm _ v]
  rw [if_congr hhead rfl rfl]
  simp only [List.mem_filter, decide_eq_true_eq]
  omega

theorem Accepted.needed (haccepted : Accepted adj s u v rest after)
    (hadj : Neighbours S adj) (hflood : Flooding adj root s)
    (hperm : (.gossip u v :: rest).Perm s.inFlight) (hnew : s.informed v = false)
    {a b : V} (hb : b ∈ adj a) (hneeded : ¬ Redundant after a b) : Needed after a b := by
  have hold := hflood.needed a b hb fun hredundant =>
    hneeded (haccepted.redundant hnew hredundant)
  have hchild : v ∉ covered root s.links := fun hmem => by
    rw [(hflood.informed_iff v).mpr hmem] at hnew
    cases hnew
  have hab : a ≠ b := fun heq => hadj.irrefl a (by rw [← heq] at hb; exact hb)
  refine ⟨?_, ?_, ?_⟩
  · rw [haccepted.cut]
    split_ifs
    · rfl
    · exact hold.uncut
  · rw [haccepted.inFlight]
    intro hmem
    rcases List.mem_append.mp hmem with hrest | hpushed
    · exact hold.unpruned (hperm.subset (List.mem_cons_of_mem _ hrest))
    · exact prune_not_mem_map _ _ _ _ hpushed
  · have hcount := haccepted.count hadj hperm a b
    have hsource := hflood.informed_of_copy (hperm.subset List.mem_cons_self)
    have hnewTo : after.informed a = true ∧ after.informed b = false ↔
        (a = v ∨ s.informed a = true) ∧ ¬ (b = v ∨ s.informed b = true) := by
      rw [← Bool.not_eq_true, haccepted.informed, haccepted.informed]
    rw [hold.copies] at hcount
    rw [if_congr hnewTo rfl rfl]
    by_cases hav : a = v
    · subst hav
      by_cases hbu : b = u
      · subst hbu
        simpa [hnew, hsource, hab] using hcount
      · have hbnew : s.informed b = false := Bool.eq_false_iff.mpr fun hbinformed =>
          hneeded (haccepted.redundant_self hflood.grown hchild hbinformed hbu hab.symm)
        simpa [hnew, hbnew, hbu, hb, hab.symm] using hcount
    · by_cases hbv : b = v
      · subst hbv
        by_cases hau : a = u
        · subst hau
          simpa [hnew, hsource, hav] using hcount
        · have hanew : s.informed a = false := Bool.eq_false_iff.mpr fun hainformed =>
            hneeded (haccepted.redundant_self hflood.grown hchild hainformed hau hav).symm
          simpa [hanew, hau, hav] using hcount
      · simpa [hav, hbv] using hcount

theorem Accepted.copy_or_cut (haccepted : Accepted adj s u v rest after)
    (hflood : Flooding adj root s)
    (hperm : (.gossip u v :: rest).Perm s.inFlight) (hnew : s.informed v = false)
    {a b : V} (hb : b ∈ adj a) (hredundant : Redundant after a b) :
    .gossip a b ∈ after.inFlight ∨ after.cut b a = true := by
  have hflight : ∀ packet ∈ s.inFlight, packet ≠ .gossip u v →
      packet ∈ after.inFlight := by
    intro packet hmem hne
    rw [haccepted.inFlight]
    exact List.mem_append_left _
      ((List.mem_cons.mp (hperm.symm.subset hmem)).resolve_left hne)
  have hnotLink : (v, u) ∈ after.links := haccepted.links ▸ List.mem_cons_self
  rcases (haccepted.informed a).mp hredundant.1 with rfl | ha
  · -- the copy which `v` has just sent
    have hbu : b ≠ u := fun heq => hredundant.3 (heq ▸ hnotLink)
    rw [haccepted.inFlight]
    exact .inl (List.mem_append_right _
      (List.mem_map.mpr ⟨b, List.mem_filter.mpr ⟨hb, decide_eq_true hbu⟩, rfl⟩))
  · rcases (haccepted.informed b).mp hredundant.2 with rfl | hbinformed
    · -- the copy which was needed as long as `v` did not know the message
      have hau : a ≠ u := fun heq => hredundant.4 (heq ▸ hnotLink)
      have hold := hflood.needed a b hb fun hold => not_redundant_of_new hnew a hold.symm
      have hcopies := hold.copies
      rw [if_pos ⟨ha, hnew⟩] at hcopies
      have hmem : .gossip a b ∈ s.inFlight :=
        List.count_pos_iff.mp (by rw [hcopies]; exact Nat.one_pos)
      exact .inl (hflight _ hmem fun heq => hau (Packet.gossip.inj heq).1)
    · have hne : ∀ w, s.informed w = true → w ≠ v := by
        rintro w hw rfl
        rw [hw] at hnew
        cases hnew
      have hlink : ∀ x y, (x, y) ∉ after.links → (x, y) ∉ s.links := by
        intro x y hnot hmem
        exact hnot (haccepted.links ▸ List.mem_cons_of_mem _ hmem)
      rcases hflood.redundant a b hb ⟨ha, hbinformed, hlink _ _ hredundant.3,
        hlink _ _ hredundant.4⟩ with hmem | hcut
      · exact .inl (hflight _ hmem fun heq =>
          hne b hbinformed (Packet.gossip.inj heq).2)
      · right
        rw [haccepted.cut, if_neg fun hand => hne b hbinformed hand.1]
        exact hcut

/-- The first copy makes the link to its sender a link of the tree. -/
theorem Flooding.accepted (hadj : Neighbours S adj) (hflood : Flooding adj root s)
    (hperm : (.gossip u v :: rest).Perm s.inFlight) (hnew : s.informed v = false)
    (haccepted : Accepted adj s u v rest after) : Flooding adj root after := by
  have hsource := hflood.informed_of_copy (hperm.subset List.mem_cons_self)
  have hparent : u ∈ covered root s.links := (hflood.informed_iff u).mp hsource
  have hchild : v ∉ covered root s.links := fun hmem => by
    rw [(hflood.informed_iff v).mpr hmem] at hnew
    cases hnew
  refine ⟨?_, ?_, ?_, ?_, ?_,
    fun a b hb hneeded => haccepted.needed hadj hflood hperm hnew hb hneeded,
    fun a b hb hredundant => haccepted.copy_or_cut hflood hperm hnew hb hredundant⟩
  · rw [haccepted.links]
    exact .attach hflood.grown hparent hchild
  · intro child parent hlink
    rw [haccepted.links] at hlink
    rcases List.mem_cons.mp hlink with heq | hold
    · obtain ⟨rfl, rfl⟩ := Prod.mk.inj heq
      exact hflood.routed _ (hperm.subset List.mem_cons_self)
    · exact hflood.along child parent hold
  · intro w
    rw [haccepted.informed, haccepted.links, mem_covered_cons, hflood.informed_iff]
  · intro packet hmem
    rw [haccepted.inFlight] at hmem
    rcases List.mem_append.mp hmem with hold | hpushed
    · exact hflood.routed packet (hperm.subset (List.mem_cons_of_mem _ hold))
    · obtain ⟨w, hw, rfl⟩ := List.mem_map.mp hpushed
      exact (List.mem_filter.mp hw).1
  · intro a b hmem
    rw [haccepted.inFlight] at hmem
    rcases List.mem_append.mp hmem with hold | hpushed
    · exact hflood.no_notice a b (hperm.subset (List.mem_cons_of_mem _ hold))
    · exact notice_not_mem_map _ _ _ _ hpushed

end Accept

theorem Flooding.deliver (hadj : Neighbours S adj) (hflood : Flooding adj root s)
    (hdeliver : PushLazyPush.deliver adj s k = some next) : Flooding adj root next := by
  obtain ⟨packet, rest, hperm, rfl⟩ := deliver_cases hdeliver
  cases packet with
  | gossip u v =>
      rw [receive]
      split_ifs with hinformed
      · exact hflood.duplicate hadj hperm hinformed
      · have hnew : s.informed v = false := Bool.eq_false_iff.mpr hinformed
        exact hflood.accepted hadj hperm hnew
          (accepted_accept (hflood.uncut_of_new hnew) rest)
  | notice u v => exact absurd (hperm.subset List.mem_cons_self) (hflood.no_notice u v)
  | prune u v => exact hflood.pruned hperm

theorem Flooding.run (hadj : Neighbours S adj) (hflood : Flooding adj root s)
    {labels : List ℕ} {final : State V}
    (hrun : (deliveries adj).run s labels = some final) : Flooding adj root final :=
  (deliveries adj).run_invariant
    (fun _ _ _ hgood hstep => Flooding.deliver hadj hgood hstep) hflood hrun

/-! ## The end -/

/-- The graph of the links which are not cut. -/
def uncutGraph (S : Finset V) (adj : V → List V) (s : State V) :
    SimpleGraph {v // v ∈ S} :=
  SimpleGraph.fromRel fun u v => v.1 ∈ adj u.1 ∧ s.cut u.1 v.1 = false

omit [DecidableEq V] in
theorem uncutGraph_le (S : Finset V) (adj : V → List V) (s : State V) :
    uncutGraph S adj s ≤ graph S adj := by
  intro u v huv
  rw [uncutGraph, SimpleGraph.fromRel_adj] at huv
  exact (SimpleGraph.fromRel_adj _ _ _).mpr
    ⟨huv.1, huv.2.imp (fun hand => hand.1) (fun hand => hand.1)⟩

theorem Flooding.uncut_of_link (hflood : Flooding adj root s) {v w : V} (hw : w ∈ adj v)
    (hlink : (v, w) ∈ s.links ∨ (w, v) ∈ s.links) : s.cut v w = false :=
  (hflood.needed v w hw fun hredundant =>
    hlink.elim hredundant.not_link hredundant.not_link_other).uncut

section Quiet

variable (hadj : Neighbours S adj) (hflood : Flooding adj root s)
  (hquiet : s.inFlight = [])

include hflood hquiet

theorem Flooding.informed_of_adj {v w : V} (hv : s.informed v = true) (hw : w ∈ adj v) :
    s.informed w = true := by
  by_contra hnew
  rw [Bool.not_eq_true] at hnew
  have hcopies := (hflood.needed v w hw fun hredundant =>
    not_redundant_of_new hnew v hredundant.symm).copies
  rw [if_pos ⟨hv, hnew⟩, hquiet] at hcopies
  cases hcopies

theorem Flooding.cut_of_redundant {v w : V} (hw : w ∈ adj v)
    (hredundant : Redundant s v w) : s.cut w v = true := by
  rcases hflood.redundant v w hw hredundant with hmem | hcut
  · rw [hquiet] at hmem
    cases hmem
  · exact hcut

include hadj

theorem Flooding.cut_comm {v w : V} (hw : w ∈ adj v) : s.cut v w = s.cut w v := by
  have hv := hadj.symm hw
  by_cases hredundant : Redundant s v w
  · rw [hflood.cut_of_redundant hquiet hw hredundant,
      hflood.cut_of_redundant hquiet hv hredundant.symm]
  · rw [(hflood.needed v w hw hredundant).uncut,
      (hflood.needed w v hv fun hother => hredundant hother.symm).uncut]

variable (hroot : root ∈ S) (hconnected : (graph S adj).Connected)

include hroot hconnected

theorem Flooding.informed_all {v : V} (hv : v ∈ S) : s.informed v = true := by
  obtain ⟨walk⟩ := hconnected.preconnected ⟨root, hroot⟩ ⟨v, hv⟩
  have hstart : s.informed root = true :=
    (hflood.informed_iff root).mpr List.mem_cons_self
  -- along a walk every vertex is informed because the one before it is
  have hwalk : ∀ {x y : {v // v ∈ S}}, (graph S adj).Walk x y →
      s.informed x.1 = true → s.informed y.1 = true := by
    intro x y walk
    induction walk with
    | nil => exact id
    | cons hstep _ ih =>
        intro hx
        rcases ((SimpleGraph.fromRel_adj _ _ _).mp hstep).2 with hmem | hmem
        · exact ih (hflood.informed_of_adj hquiet hx hmem)
        · exact ih (hflood.informed_of_adj hquiet hx (hadj.symm hmem))
  exact hwalk walk hstart

theorem Flooding.covers (v : V) : v ∈ S ↔ v ∈ covered root s.links := by
  constructor
  · intro hv
    exact (hflood.informed_iff v).mp
      (hflood.informed_all hadj hquiet hroot hconnected hv)
  · intro hmem
    rcases List.mem_cons.mp hmem with rfl | hchild
    · exact hroot
    · obtain ⟨⟨child, parent⟩, hlink, rfl⟩ := List.mem_map.mp hchild
      exact hadj.target_mem (hflood.along child parent hlink)

theorem Flooding.count_first {v : V} (hv : v ∈ S) :
    (s.links.map Prod.fst).count v = if v = root then 0 else 1 := by
  have hcovered := (hflood.covers hadj hquiet hroot hconnected v).mp hv
  rw [hflood.grown.count_children]
  by_cases hvroot : v = root
  · rw [if_neg fun hand => hand.2 hvroot, if_pos hvroot]
  · rw [if_pos ⟨hcovered, hvroot⟩, if_neg hvroot]

theorem Flooding.uncutGraph_eq : uncutGraph S adj s = linkGraph S s.links := by
  ext u v
  rw [uncutGraph, linkGraph, SimpleGraph.fromRel_adj, SimpleGraph.fromRel_adj]
  have hinformed := fun w : {v // v ∈ S} =>
    hflood.informed_all hadj hquiet hroot hconnected w.2
  have hlinked : ∀ a b : {v // v ∈ S}, b.1 ∈ adj a.1 → s.cut a.1 b.1 = false →
      (a.1, b.1) ∈ s.links ∨ (b.1, a.1) ∈ s.links := by
    intro a b hb huncut
    by_contra hnot
    rw [not_or] at hnot
    have hcut := hflood.cut_of_redundant hquiet (hadj.symm hb)
      ⟨hinformed b, hinformed a, hnot.2, hnot.1⟩
    rw [hcut] at huncut
    cases huncut
  constructor
  · rintro ⟨hne, ⟨hmem, huncut⟩ | ⟨hmem, huncut⟩⟩
    · exact ⟨hne, hlinked u v hmem huncut⟩
    · exact ⟨hne, (hlinked v u hmem huncut).symm⟩
  · rintro ⟨hne, hlink⟩
    have hmem : v.1 ∈ adj u.1 := by
      rcases hlink with hlink | hlink
      · exact hadj.symm (hflood.along _ _ hlink)
      · exact hflood.along _ _ hlink
    exact ⟨hne, .inl ⟨hmem, hflood.uncut_of_link hmem hlink⟩⟩

/-- The links which are not cut are a spanning tree. -/
theorem Flooding.uncutGraph_isTree : (uncutGraph S adj s).IsTree := by
  rw [hflood.uncutGraph_eq hadj hquiet hroot hconnected]
  exact hflood.grown.isTree (hflood.covers hadj hquiet hroot hconnected)

end Quiet

end PushLazyPush
end LibWake
