import Mathlib.Combinatorics.SimpleGraph.Acyclic

/-!
# Trees grown link by link

A tree is grown from a root by attaching one new vertex at a time to a vertex
which is already there.  The list of the links, newest first, is all which is
kept.  On the vertices it covers, the graph of the links is a tree.
-/

namespace LibWake
namespace GrownTree

variable {V : Type*}

/-- The vertices reached so far. -/
def covered (root : V) (links : List (V × V)) : List V :=
  root :: links.map Prod.fst

/-- Every link joins a new child to a parent which was covered before. -/
inductive Grown (root : V) : List (V × V) → Prop
  | bare : Grown root []
  | attach {links : List (V × V)} {child parent : V} (hgrown : Grown root links)
      (hparent : parent ∈ covered root links) (hchild : child ∉ covered root links) :
      Grown root ((child, parent) :: links)

/-- The graph of the links on a set of vertices. -/
def linkGraph (S : Finset V) (links : List (V × V)) : SimpleGraph {v // v ∈ S} :=
  SimpleGraph.fromRel fun u v => (u.1, v.1) ∈ links

theorem mem_covered_cons {root child parent v : V} {links : List (V × V)} :
    v ∈ covered root ((child, parent) :: links) ↔
      v = child ∨ v ∈ covered root links := by
  simp only [covered, List.map_cons, List.mem_cons]
  exact or_left_comm

variable {root : V} {links : List (V × V)}

theorem Grown.covered_nodup (hgrown : Grown root links) : (covered root links).Nodup := by
  induction hgrown with
  | bare => exact List.nodup_singleton root
  | attach hgrown _ hchild ih =>
      simp only [covered, List.map_cons, List.mem_cons, not_or, List.nodup_cons]
        at hchild ih ⊢
      exact ⟨⟨fun heq => hchild.1 heq.symm, ih.1⟩, hchild.2, ih.2⟩

theorem Grown.ends_mem (hgrown : Grown root links) {child parent : V}
    (hlink : (child, parent) ∈ links) :
    child ∈ covered root links ∧ parent ∈ covered root links := by
  induction hgrown with
  | bare => exact absurd hlink List.not_mem_nil
  | attach _ hparent _ ih =>
      rcases List.mem_cons.mp hlink with heq | hold
      · obtain ⟨rfl, rfl⟩ := Prod.mk.inj heq
        exact ⟨mem_covered_cons.mpr (.inl rfl), mem_covered_cons.mpr (.inr hparent)⟩
      · exact ⟨mem_covered_cons.mpr (.inr (ih hold).1),
          mem_covered_cons.mpr (.inr (ih hold).2)⟩

theorem Grown.child_ne_parent (hgrown : Grown root links) {child parent : V}
    (hlink : (child, parent) ∈ links) : child ≠ parent := by
  induction hgrown with
  | bare => exact absurd hlink List.not_mem_nil
  | attach _ hparent hchild ih =>
      rcases List.mem_cons.mp hlink with heq | hold
      · obtain ⟨rfl, rfl⟩ := Prod.mk.inj heq
        exact fun heq => hchild (heq ▸ hparent)
      · exact ih hold

/-- Each covered vertex other than the root is a child once, the root never. -/
theorem Grown.count_children [DecidableEq V] (hgrown : Grown root links) (v : V) :
    (links.map Prod.fst).count v =
      if v ∈ covered root links ∧ v ≠ root then 1 else 0 := by
  have hnodup := List.nodup_cons.mp hgrown.covered_nodup
  rw [List.Nodup.count hnodup.2]
  refine if_congr ?_ rfl rfl
  constructor
  · intro hmem
    exact ⟨List.mem_cons_of_mem _ hmem, fun heq => hnodup.1 (heq ▸ hmem)⟩
  · rintro ⟨hmem, hne⟩
    exact (List.mem_cons.mp hmem).resolve_left hne

/-- Several new children of one parent. -/
theorem Grown.attach_all (hgrown : Grown root links) {parent : V}
    (hparent : parent ∈ covered root links) {children : List V}
    (hnodup : children.Nodup) (hnew : ∀ child ∈ children, child ∉ covered root links) :
    Grown root (children.map (fun child => (child, parent)) ++ links) := by
  induction children with
  | nil => exact hgrown
  | cons child rest ih =>
      obtain ⟨hfirst, hrest⟩ := List.nodup_cons.mp hnodup
      have htail := ih hrest fun other hmem => hnew other (List.mem_cons_of_mem _ hmem)
      rw [List.map_cons, List.cons_append]
      refine .attach htail ?_ ?_
      · exact List.mem_cons.mpr ((List.mem_cons.mp hparent).imp_right fun hold => by
          rw [List.map_append]
          exact List.mem_append_right _ hold)
      · have hold := hnew child List.mem_cons_self
        simp only [covered, List.mem_cons, not_or] at hold
        simp only [covered, List.map_append, List.map_map, List.mem_cons,
          List.mem_append, not_or]
        refine ⟨hold.1, ?_, hold.2⟩
        simpa using hfirst

section Spanning

variable {S : Finset V}

/-- The links of a younger tree are enough to reach what it covers. -/
theorem Grown.reachable_root (hgrown : Grown root links)
    (hwithin : ∀ v ∈ covered root links, v ∈ S) {younger : List (V × V)}
    (hyoung : Grown root younger) (hsub : younger ⊆ links) (hroot : root ∈ S) {v : V}
    (hv : v ∈ S) (hmem : v ∈ covered root younger) :
    (linkGraph S links).Reachable ⟨root, hroot⟩ ⟨v, hv⟩ := by
  induction hyoung generalizing v with
  | bare =>
      obtain rfl : v = root := by simpa [covered] using hmem
      exact SimpleGraph.Reachable.refl _
  | @attach younger child parent hyoung hparent hchild ih =>
      have hrest := @ih fun _ hlink => hsub (List.mem_cons_of_mem _ hlink)
      rcases mem_covered_cons.mp hmem with rfl | hold
      · have hlink := hsub List.mem_cons_self
        have hparentS := hwithin parent (hgrown.ends_mem hlink).2
        have hadj : (linkGraph S links).Adj ⟨parent, hparentS⟩ ⟨v, hv⟩ :=
          (SimpleGraph.fromRel_adj _ _ _).mpr
            ⟨fun heq => hgrown.child_ne_parent hlink (congrArg Subtype.val heq).symm,
              .inr hlink⟩
        exact (hrest hparentS hparent).trans hadj.reachable
      · exact hrest hv hold

/-- In a graph without cycles every edge between covered vertices is a link. -/
theorem Grown.link_of_adj {G : SimpleGraph {v // v ∈ S}} (hgrown : Grown root links)
    (hwithin : ∀ v ∈ covered root links, v ∈ S) (hacyclic : G.IsAcyclic)
    (hle : linkGraph S links ≤ G) {v w : {v // v ∈ S}} (hadj : G.Adj v w)
    (hv : v.1 ∈ covered root links) (hw : w.1 ∈ covered root links) :
    (v.1, w.1) ∈ links ∨ (w.1, v.1) ∈ links := by
  by_contra hnot
  rw [not_or] at hnot
  have hroot := hwithin root List.mem_cons_self
  have hreach := fun (u : {v // v ∈ S}) (hu : u.1 ∈ covered root links) =>
    hgrown.reachable_root hwithin hgrown (List.Subset.refl _) hroot u.2 hu
  have hdeleted : linkGraph S links ≤ G.deleteEdges {s(v, w)} := by
    intro a b hab
    refine (SimpleGraph.deleteEdges_adj).mpr ⟨hle hab, ?_⟩
    rw [Set.mem_singleton_iff, Sym2.eq_iff]
    have hlink := ((SimpleGraph.fromRel_adj _ _ _).mp hab).2
    rintro (⟨rfl, rfl⟩ | ⟨rfl, rfl⟩)
    · exact hlink.elim hnot.1 hnot.2
    · exact hlink.elim hnot.2 hnot.1
  have hbridge := SimpleGraph.isAcyclic_iff_forall_adj_isBridge.mp hacyclic hadj
  exact SimpleGraph.isBridge_iff.mp hbridge
    (((hreach v hv).symm.trans (hreach w hw)).mono hdeleted)

theorem edgeSet_card_le (S : Finset V) (links : List (V × V)) :
    Nat.card (linkGraph S links).edgeSet ≤ links.length := by
  classical
  let ends : Finset (Sym2 V) := (links.map fun link => s(link.1, link.2)).toFinset
  have hmaps : ∀ e ∈ (linkGraph S links).edgeSet,
      e.map Subtype.val ∈ (ends : Set (Sym2 V)) := by
    intro e
    induction e with
    | _ u v =>
        intro hedge
        have hadj : (linkGraph S links).Adj u v := hedge
        rcases ((SimpleGraph.fromRel_adj _ _ _).mp hadj).2 with hlink | hlink
        · exact List.mem_toFinset.mpr (List.mem_map.mpr ⟨(u.1, v.1), hlink, rfl⟩)
        · exact List.mem_toFinset.mpr
            (List.mem_map.mpr ⟨(v.1, u.1), hlink, Sym2.eq_swap⟩)
  have hinjective : Set.InjOn (Sym2.map Subtype.val) (linkGraph S links).edgeSet :=
    (Sym2.map.injective Subtype.val_injective).injOn
  calc
    Nat.card (linkGraph S links).edgeSet = (linkGraph S links).edgeSet.ncard := rfl
    _ ≤ (ends : Set (Sym2 V)).ncard :=
      Set.ncard_le_ncard_of_injOn _ hmaps hinjective ends.finite_toSet
    _ = ends.card := Set.ncard_coe_finset ends
    _ ≤ links.length := by
      refine (List.toFinset_card_le _).trans ?_
      rw [List.length_map]

/-- The links of a grown tree are a tree on the vertices they cover. -/
theorem Grown.isTree (hgrown : Grown root links)
    (hcovers : ∀ v, v ∈ S ↔ v ∈ covered root links) : (linkGraph S links).IsTree := by
  classical
  have hroot := (hcovers root).mpr List.mem_cons_self
  have hreach : ∀ v : {v // v ∈ S}, (linkGraph S links).Reachable ⟨root, hroot⟩ v :=
    fun v => hgrown.reachable_root (fun w => (hcovers w).mpr) hgrown
      (List.Subset.refl _) hroot v.2 ((hcovers v.1).mp v.2)
  have hconnected : (linkGraph S links).Connected :=
    (SimpleGraph.connected_iff _).mpr
      ⟨fun u v => (hreach u).symm.trans (hreach v), ⟨⟨root, hroot⟩⟩⟩
  have hvertices : Nat.card {v // v ∈ S} = links.length + 1 := by
    have hset : S = (covered root links).toFinset := by
      ext v
      rw [hcovers, List.mem_toFinset]
    rw [Nat.card_eq_fintype_card, Fintype.card_coe, hset,
      List.toFinset_card_of_nodup hgrown.covered_nodup, covered, List.length_cons,
      List.length_map]
  rw [SimpleGraph.isTree_iff_connected_and_card]
  refine ⟨hconnected, ?_⟩
  have hle := edgeSet_card_le S links
  have hge := hconnected.card_vert_le_card_edgeSet_add_one
  omega

end Spanning

end GrownTree
end LibWake
