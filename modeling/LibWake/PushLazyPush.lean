import Mathlib.Algebra.BigOperators.Group.Finset.Basic
import Mathlib.Algebra.BigOperators.Group.List.Lemmas
import Mathlib.Algebra.Order.BigOperators.Group.Finset
import LibWake.GrownTree
import LibWake.TransitionSystem

/-!
# Push-lazy-push broadcast of one message

Vertices pass one message on to their neighbours: in full over the links they
have not cut, as a notice over the others.  Who gets a second copy cuts the link
and tells the other end to do the same.  The packets in flight are delivered one
at a time in any order.

From a state without cut links the message is flooded.  The copies which come
first grow a tree, every other link ends up cut at both ends.
-/

namespace LibWake
namespace PushLazyPush

open GrownTree

variable {V : Type*}

/-! ## The protocol -/

inductive Packet (V : Type*) where
  | gossip (source target : V)
  | notice (source target : V)
  | prune (source target : V)
  deriving DecidableEq, Repr

def Packet.source : Packet V → V
  | .gossip source _ => source
  | .notice source _ => source
  | .prune source _ => source

def Packet.target : Packet V → V
  | .gossip _ target => target
  | .notice _ target => target
  | .prune _ target => target

/-- `cut v w` is the view which `v` has of its link to `w`; `links` records who
got its first copy from whom, newest first. -/
structure State (V : Type*) where
  informed : V → Bool
  cut : V → V → Bool
  links : List (V × V)
  inFlight : List (Packet V)
  sent : List (Packet V)

/-- Nothing is known and nothing was sent yet. -/
structure State.Silent (s : State V) : Prop where
  informed : ∀ v, s.informed v = false
  links : s.links = []
  inFlight : s.inFlight = []
  sent : s.sent = []

def State.send (s : State V) (packets : List (Packet V)) : State V :=
  { s with inFlight := s.inFlight ++ packets, sent := s.sent ++ packets }

/-- What `v` sends to the targets when it passes the message on. -/
def push (s : State V) (v : V) (targets : List V) : List (Packet V) :=
  targets.map fun w => if s.cut v w then .notice v w else .gossip v w

section Steps

variable [DecidableEq V] (adj : V → List V)

def State.inform (s : State V) (v : V) : State V :=
  { s with informed := Function.update s.informed v true }

def State.setCut (s : State V) (v w : V) (value : Bool) : State V :=
  { s with cut := Function.update s.cut v (Function.update (s.cut v) w value) }

/-- The root makes the message up. -/
def originate (s : State V) (root : V) : State V :=
  (s.inform root).send (push s root (adj root))

/-- The first copy reaches `v`, from `u`. -/
def accept (s : State V) (u v : V) : State V :=
  let accepted := (s.inform v).setCut v u false
  { accepted with links := (v, u) :: s.links }.send
    (push accepted v ((adj v).filter fun w => w ≠ u))

/-- What the target of a packet does. -/
def receive (s : State V) : Packet V → State V
  | .gossip u v =>
      if s.informed v then (s.setCut v u true).send [.prune v u] else accept adj s u v
  | .notice _ _ => s
  | .prune u v => s.setCut v u true

/-- Packet `k` of those in flight is delivered. -/
def deliver (s : State V) (k : ℕ) : Option (State V) :=
  s.inFlight[k]?.map fun packet =>
    receive adj { s with inFlight := s.inFlight.eraseIdx k } packet

/-- The deliveries after one origination. -/
def deliveries : TransitionSystem (State V) ℕ where
  Initial s := ∃ silent root, State.Silent silent ∧ originate adj silent root = s
  step := deliver adj

end Steps

/-- Finitely many vertices and their neighbours. -/
structure Neighbours (S : Finset V) (adj : V → List V) : Prop where
  nodup : ∀ v, (adj v).Nodup
  irrefl : ∀ v, v ∉ adj v
  symm : ∀ {v w}, w ∈ adj v → v ∈ adj w
  within : ∀ {v w}, w ∈ adj v → v ∈ S

theorem Neighbours.target_mem {S : Finset V} {adj : V → List V}
    (hadj : Neighbours S adj) {v w : V} (hmem : w ∈ adj v) : w ∈ S :=
  hadj.within (hadj.symm hmem)

/-- The graph of the neighbours. -/
def graph (S : Finset V) (adj : V → List V) : SimpleGraph {v // v ∈ S} :=
  SimpleGraph.fromRel fun u v => v.1 ∈ adj u.1

/-! ## One delivery -/

section Push

variable {s : State V}

theorem push_length (s : State V) (v : V) (targets : List V) :
    (push s v targets).length = targets.length :=
  List.length_map _

theorem mem_push {v : V} {targets : List V} {packet : Packet V}
    (hmem : packet ∈ push s v targets) :
    packet.source = v ∧ packet.target ∈ targets := by
  obtain ⟨w, hw, rfl⟩ := List.mem_map.mp hmem
  split_ifs
  · exact ⟨rfl, hw⟩
  · exact ⟨rfl, hw⟩

theorem push_of_uncut {v : V} {targets : List V}
    (huncut : ∀ w ∈ targets, s.cut v w = false) :
    push s v targets = targets.map (.gossip v) := by
  apply List.map_congr_left
  intro w hw
  rw [huncut w hw]
  rfl

end Push

section Delivery

variable [DecidableEq V] {adj : V → List V} {s next : State V} {k : ℕ}

theorem deliver_cases (hdeliver : deliver adj s k = some next) :
    ∃ packet rest, (packet :: rest).Perm s.inFlight ∧
      next = receive adj { s with inFlight := rest } packet := by
  obtain ⟨packet, hget, rfl⟩ := Option.map_eq_some_iff.mp hdeliver
  obtain ⟨hk, rfl⟩ := List.getElem?_eq_some_iff.mp hget
  exact ⟨_, _, List.getElem_cons_eraseIdx_perm hk, rfl⟩

theorem cut_setCut (s : State V) (v w a b : V) (value : Bool) :
    (s.setCut v w value).cut a b = if a = v ∧ b = w then value else s.cut a b := by
  by_cases ha : a = v
  · subst ha
    by_cases hb : b = w
    · subst hb
      simp [State.setCut]
    · simp [State.setCut, hb]
  · simp [State.setCut, ha]

end Delivery

/-! ## Only finitely many packets -/

/-- A copy may still make its target send one packet. -/
def Packet.weight : Packet V → ℕ
  | .gossip _ _ => 2
  | .notice _ _ => 1
  | .prune _ _ => 1

theorem weight_pos (packet : Packet V) : 0 < packet.weight := by
  cases packet <;> simp [Packet.weight]

theorem length_le_weight (packets : List (Packet V)) :
    packets.length ≤ (packets.map Packet.weight).sum := by
  have hle := List.length_le_sum_of_one_le (packets.map Packet.weight) fun n hn => by
    obtain ⟨packet, _, rfl⟩ := List.mem_map.mp hn
    exact weight_pos packet
  rwa [List.length_map] at hle

theorem push_weight_le (s : State V) (v : V) (targets : List V) :
    ((push s v targets).map Packet.weight).sum ≤ 2 * targets.length := by
  have hle := List.sum_le_card_nsmul ((push s v targets).map Packet.weight) 2 fun n hn => by
    obtain ⟨packet, _, rfl⟩ := List.mem_map.mp hn
    cases packet <;> simp [Packet.weight]
  rwa [List.length_map, push_length, smul_eq_mul, Nat.mul_comm] at hle

section Work

variable [DecidableEq V] (S : Finset V) (adj : V → List V)

/-- An uninformed vertex may still send a copy to each neighbour. -/
def State.vertexWork (s : State V) (v : V) : ℕ :=
  if s.informed v then 0 else 2 * (adj v).length

def State.work (s : State V) : ℕ :=
  ∑ v ∈ S, s.vertexWork adj v + (s.inFlight.map Packet.weight).sum

/-- Every packet in flight goes from a vertex to one of its neighbours. -/
def State.Routed (s : State V) : Prop :=
  ∀ packet ∈ s.inFlight, packet.target ∈ adj packet.source

variable {S adj} {s next : State V} {k : ℕ}

theorem sum_vertexWork_inform {v : V} (hv : v ∈ S) (hnew : s.informed v = false) :
    ∑ w ∈ S, (s.inform v).vertexWork adj w + 2 * (adj v).length =
      ∑ w ∈ S, s.vertexWork adj w := by
  have hself : (s.inform v).vertexWork adj v = 0 := by
    simp [State.vertexWork, State.inform]
  have hold : s.vertexWork adj v = 2 * (adj v).length := by
    simp [State.vertexWork, hnew]
  have hothers : ∑ w ∈ S.erase v, (s.inform v).vertexWork adj w =
      ∑ w ∈ S.erase v, s.vertexWork adj w := by
    apply Finset.sum_congr rfl
    intro w hw
    have hne := (Finset.mem_erase.mp hw).1
    simp [State.vertexWork, State.inform, hne]
  rw [← Finset.sum_erase_add _ _ hv, ← Finset.sum_erase_add S (s.vertexWork adj) hv,
    hself, hold, hothers, Nat.add_zero]

theorem routed_originate (hsilent : s.Silent) (root : V) :
    (originate adj s root).Routed adj := by
  intro packet hmem
  rw [originate, State.send, State.inform, hsilent.inFlight, List.nil_append] at hmem
  obtain ⟨hsource, htarget⟩ := mem_push hmem
  exact hsource ▸ htarget

theorem State.Routed.deliver (hadj : Neighbours S adj) (hrouted : s.Routed adj)
    (hdeliver : PushLazyPush.deliver adj s k = some next) : next.Routed adj := by
  obtain ⟨packet, rest, hperm, rfl⟩ := deliver_cases hdeliver
  have hhead := hrouted packet (hperm.subset List.mem_cons_self)
  have hrest : ∀ other ∈ rest, other.target ∈ adj other.source := fun other hmem =>
    hrouted other (hperm.subset (List.mem_cons_of_mem _ hmem))
  cases packet with
  | gossip u v =>
      rw [receive]
      split_ifs
      · intro other hmem
        rcases List.mem_append.mp hmem with hold | hnew
        · exact hrest other hold
        · rw [List.mem_singleton.mp hnew]
          exact hadj.symm hhead
      · intro other hmem
        rcases List.mem_append.mp hmem with hold | hnew
        · exact hrest other hold
        · obtain ⟨hsource, htarget⟩ := mem_push hnew
          rw [hsource]
          exact (List.mem_filter.mp htarget).1
  | notice u v => exact hrest
  | prune u v => exact hrest

/-- A delivery costs more work than it makes. -/
theorem deliver_work (hadj : Neighbours S adj) (hrouted : s.Routed adj)
    (hdeliver : deliver adj s k = some next) : next.work S adj < s.work S adj := by
  obtain ⟨packet, rest, hperm, rfl⟩ := deliver_cases hdeliver
  have hweight : packet.weight + (rest.map Packet.weight).sum =
      (s.inFlight.map Packet.weight).sum := by
    rw [← (hperm.map Packet.weight).sum_eq, List.map_cons, List.sum_cons]
  have hpos := weight_pos packet
  cases packet with
  | gossip u v =>
      have hhead : (Packet.gossip u v).weight = 2 := rfl
      have hv : v ∈ S := hadj.target_mem (hrouted _ (hperm.subset List.mem_cons_self))
      rw [receive]
      split_ifs with hinformed
      · have hprune : ((rest ++ [Packet.prune v u]).map Packet.weight).sum =
            (rest.map Packet.weight).sum + 1 := by
          simp [Packet.weight]
        change ∑ w ∈ S, s.vertexWork adj w +
          ((rest ++ [Packet.prune v u]).map Packet.weight).sum < s.work S adj
        rw [State.work]
        omega
      · set targets := (adj v).filter fun w => w ≠ u with htargets
        set accepted := ({ s with inFlight := rest }.inform v).setCut v u false
        have hforward := push_weight_le accepted v targets
        have hlength : targets.length ≤ (adj v).length := List.length_filter_le _ _
        have hnew : s.informed v = false := Bool.eq_false_iff.mpr hinformed
        have hsum : ∑ w ∈ S, (s.inform v).vertexWork adj w + 2 * (adj v).length =
            ∑ w ∈ S, s.vertexWork adj w := sum_vertexWork_inform hv hnew
        change ∑ w ∈ S, (s.inform v).vertexWork adj w +
          ((rest ++ push accepted v targets).map Packet.weight).sum < s.work S adj
        rw [State.work, List.map_append, List.sum_append]
        omega
  | notice u v =>
      change ∑ w ∈ S, s.vertexWork adj w + (rest.map Packet.weight).sum < s.work S adj
      rw [State.work]
      omega
  | prune u v =>
      change ∑ w ∈ S, s.vertexWork adj w + (rest.map Packet.weight).sum < s.work S adj
      rw [State.work]
      omega

theorem deliver_sent_length (hdeliver : deliver adj s k = some next) :
    next.sent.length + s.inFlight.length = s.sent.length + 1 + next.inFlight.length := by
  obtain ⟨packet, rest, hperm, rfl⟩ := deliver_cases hdeliver
  have hlength : rest.length + 1 = s.inFlight.length := by
    rw [← hperm.length_eq, List.length_cons]
  cases packet with
  | gossip u v =>
      rw [receive]
      split_ifs
      · simp only [State.send, State.setCut, List.length_append]
        omega
      · simp only [accept, State.send, State.setCut, State.inform, List.length_append]
        omega
  | notice u v =>
      simp only [receive]
      omega
  | prune u v =>
      simp only [receive, State.setCut]
      omega

theorem run_sent_length {labels : List ℕ} {final : State V}
    (hrun : (deliveries adj).run s labels = some final) :
    final.sent.length + s.inFlight.length =
      s.sent.length + labels.length + final.inFlight.length := by
  induction labels generalizing s with
  | nil =>
      obtain rfl : s = final := by simpa using hrun
      rfl
  | cons label rest ih =>
      obtain ⟨next, hstep, hrest⟩ := (deliveries adj).run_cons_eq_some.mp hrun
      have htail := ih hrest
      have hhead := deliver_sent_length hstep
      simp only [List.length_cons]
      omega

theorem work_originate_le {root : V} (hroot : root ∈ S) (hsilent : s.Silent) :
    (originate adj s root).work S adj ≤ 2 * ∑ v ∈ S, (adj v).length := by
  have hsum : ∑ v ∈ S, (s.inform root).vertexWork adj v + 2 * (adj root).length =
      ∑ v ∈ S, s.vertexWork adj v := sum_vertexWork_inform hroot (hsilent.informed root)
  have hall : ∑ v ∈ S, s.vertexWork adj v = 2 * ∑ v ∈ S, (adj v).length := by
    rw [Finset.mul_sum]
    apply Finset.sum_congr rfl
    intro v _
    simp [State.vertexWork, hsilent.informed v]
  have hpush := push_weight_le (s.inform root) root (adj root)
  change ∑ v ∈ S, (s.inform root).vertexWork adj v +
    ((s.inFlight ++ push (s.inform root) root (adj root)).map Packet.weight).sum ≤ _
  rw [hsilent.inFlight, List.nil_append]
  omega

/-- Whatever the order of the deliveries, the packets sent are bounded. -/
theorem run_bounded (hadj : Neighbours S adj) {root : V} (hroot : root ∈ S)
    (hsilent : s.Silent) {labels : List ℕ} {final : State V}
    (hrun : (deliveries adj).run (originate adj s root) labels = some final) :
    final.sent.length = labels.length + final.inFlight.length ∧
      final.sent.length ≤ 2 * ∑ v ∈ S, (adj v).length := by
  have hsteps : labels.length + final.work S adj ≤ (originate adj s root).work S adj :=
    (deliveries adj).run_length_le_measure
      (fun _ _ _ hrouted hstep => State.Routed.deliver hadj hrouted hstep)
      (fun _ _ _ hrouted hstep => deliver_work hadj hrouted hstep)
      (routed_originate hsilent root) hrun
  have hstart : (originate adj s root).work S adj ≤ 2 * ∑ v ∈ S, (adj v).length :=
    work_originate_le hroot hsilent
  have hlength := run_sent_length hrun
  have hsame : (originate adj s root).sent = (originate adj s root).inFlight := by
    simp only [originate, State.send, State.inform, hsilent.sent, hsilent.inFlight]
  have hflight := length_le_weight final.inFlight
  have hwork : (final.inFlight.map Packet.weight).sum ≤ final.work S adj :=
    Nat.le_add_left _ _
  rw [hsame] at hlength
  omega

end Work

end PushLazyPush
end LibWake
