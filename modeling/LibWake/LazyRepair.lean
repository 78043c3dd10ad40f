import Mathlib.Algebra.BigOperators.Group.Multiset.Basic
import Mathlib.Algebra.Order.BigOperators.Group.Finset
import Mathlib.Data.Finset.Basic
import Mathlib.Data.Fintype.Basic
import LibWake.PushLazyPush

/-!
# Lazy repair on a graph

An informed vertex offers the message to its neighbours: a copy over some links,
a notice over the others.  A vertex which has only the notice marks whom it had
it from, asks there at a time of its own choice, and is answered with a copy.
Copies may also go round at any time, and other messages may change which links
carry notices, so every step chooses that anew.

What a vertex does with one packet is a reaction; a step of the system is one
reaction, one origination, or one packet in flight doubled by the network.
-/

namespace LibWake
namespace LazyRepair

open PushLazyPush (Neighbours graph)

variable {V : Type*}

inductive Packet (V : Type*) where
  | copy (source target : V)
  | notice (source target : V)
  | request (source target : V)
  | refusal (source target : V)
  deriving DecidableEq, Repr

def Packet.source : Packet V → V
  | .copy source _ | .notice source _ | .request source _ | .refusal source _ => source

def Packet.target : Packet V → V
  | .copy _ target | .notice _ target | .request _ target | .refusal _ target => target

/-- The end of a packet which has the message. -/
def Packet.holder : Packet V → Option V
  | .copy source _ => some source
  | .notice source _ => some source
  | .request _ target => some target
  | .refusal _ _ => none

/-- The end of a packet which the message is on its way to. -/
def Packet.seeker : Packet V → Option V
  | .copy _ target => some target
  | .notice _ target => some target
  | .request source _ => some source
  | .refusal _ _ => none

/-- One vertex: whether it has the message, and whom it wants to ask for it. -/
structure Mark (V : Type*) where
  informed : Bool
  wants : Option V
  deriving DecidableEq, Repr

structure State (V : Type*) where
  mark : V → Mark V
  inFlight : Multiset (Packet V)

/-- The offer to one neighbour. -/
def offer (lazy : V → Bool) (v w : V) : Packet V :=
  if lazy w then .notice v w else .copy v w

def offers (lazy : V → Bool) (v : V) (targets : List V) : Multiset (Packet V) :=
  (targets.map (offer lazy v) : List (Packet V))

section Steps

variable [DecidableEq V] (adj : V → List V)

/-- What vertex `v` takes from the network, what it becomes and what it sends. -/
inductive Reaction (v : V) :
    Mark V → Multiset (Packet V) → Mark V → Multiset (Packet V) → Prop where
  | accept (u : V) (want : Option V) (lazy : V → Bool) :
      Reaction v ⟨false, want⟩ {.copy u v} ⟨true, none⟩
        (offers lazy v ((adj v).filter fun w => w ≠ u))
  | refuse (u : V) (want : Option V) :
      Reaction v ⟨true, want⟩ {.copy u v} ⟨true, want⟩ {.refusal v u}
  | note (u : V) (want : Option V) :
      Reaction v ⟨false, want⟩ {.notice u v} ⟨false, some u⟩ 0
  | ignore (u : V) (want : Option V) :
      Reaction v ⟨true, want⟩ {.notice u v} ⟨true, want⟩ 0
  | ask (u : V) (informed : Bool) :
      Reaction v ⟨informed, some u⟩ 0 ⟨informed, none⟩ {.request v u}
  | answer (u : V) (want : Option V) :
      Reaction v ⟨true, want⟩ {.request u v} ⟨true, want⟩ {.copy v u}
  | unanswered (u : V) (want : Option V) :
      Reaction v ⟨false, want⟩ {.request u v} ⟨false, want⟩ 0
  | settle (u : V) (mark : Mark V) :
      Reaction v mark {.refusal u v} mark 0

def State.become (s : State V) (v : V) (mark : Mark V) (inFlight : Multiset (Packet V)) :
    State V where
  mark := Function.update s.mark v mark
  inFlight := inFlight

def originate (s : State V) (v : V) (lazy : V → Bool) : State V :=
  s.become v ⟨true, (s.mark v).wants⟩ (s.inFlight + offers lazy v (adj v))

inductive Step (S : Finset V) : State V → State V → Prop where
  | react {s : State V} {v : V} {taken rest sent : Multiset (Packet V)} {mark : Mark V}
      (hv : v ∈ S) (hflight : s.inFlight = taken + rest)
      (hreact : Reaction adj v (s.mark v) taken mark sent) :
      Step S s (s.become v mark (rest + sent))
  | originate {s : State V} {v : V} (hv : v ∈ S) (lazy : V → Bool) :
      Step S s (originate adj s v lazy)
  | double {s : State V} {packet : Packet V} (hmem : packet ∈ s.inFlight) :
      Step S s { s with inFlight := packet ::ₘ s.inFlight }

end Steps

/-! ## Inside the graph -/

/-- Packets go between vertices of the graph, and only these wait for each other. -/
structure State.Inside (S : Finset V) (s : State V) : Prop where
  packets : ∀ packet ∈ s.inFlight, packet.source ∈ S ∧ packet.target ∈ S
  wants : ∀ v u, (s.mark v).wants = some u → v ∈ S ∧ u ∈ S

theorem mem_offers {lazy : V → Bool} {v : V} {targets : List V} {packet : Packet V} :
    packet ∈ offers lazy v targets ↔ ∃ w ∈ targets, offer lazy v w = packet := by
  rw [offers, Multiset.mem_coe, List.mem_map]

theorem offers_ends {lazy : V → Bool} {v : V} {targets : List V} {packet : Packet V}
    (hmem : packet ∈ offers lazy v targets) :
    packet.source = v ∧ packet.target ∈ targets := by
  obtain ⟨w, hw, rfl⟩ := mem_offers.mp hmem
  unfold offer
  split
  · exact ⟨rfl, hw⟩
  · exact ⟨rfl, hw⟩

section Inside

variable [DecidableEq V] {adj : V → List V} {S : Finset V} {s next : State V}

/-- A reaction brings in no vertex which was not there before, but neighbours. -/
theorem Reaction.ends {v : V} {before after : Mark V} {taken sent : Multiset (Packet V)}
    (hadj : Neighbours S adj) (hreact : Reaction adj v before taken after sent) (hv : v ∈ S)
    (htaken : ∀ packet ∈ taken, packet.source ∈ S) (hwants : ∀ u, before.wants = some u → u ∈ S) :
    (∀ packet ∈ sent, packet.source ∈ S ∧ packet.target ∈ S) ∧
      ∀ u, after.wants = some u → u ∈ S := by
  have hnothing : ∀ packet ∈ (0 : Multiset (Packet V)), packet.source ∈ S ∧ packet.target ∈ S :=
    fun packet hmem => absurd hmem (Multiset.notMem_zero packet)
  cases hreact with
  | accept u want lazy =>
      refine ⟨fun packet hmem => ?_, fun w hnone => by cases hnone⟩
      obtain ⟨hsource, htarget⟩ := offers_ends hmem
      exact ⟨hsource ▸ hv, hadj.target_mem (List.mem_filter.mp htarget).1⟩
  | refuse u want =>
      refine ⟨fun packet hmem => ?_, hwants⟩
      rw [Multiset.mem_singleton] at hmem
      subst hmem
      exact ⟨hv, htaken _ (Multiset.mem_singleton_self _)⟩
  | note u want =>
      refine ⟨hnothing, fun w hwant => ?_⟩
      obtain rfl := Option.some.inj hwant
      exact htaken _ (Multiset.mem_singleton_self _)
  | ignore => exact ⟨hnothing, hwants⟩
  | ask u informed =>
      refine ⟨fun packet hmem => ?_, fun w hnone => by cases hnone⟩
      rw [Multiset.mem_singleton] at hmem
      subst hmem
      exact ⟨hv, hwants u rfl⟩
  | answer u want =>
      refine ⟨fun packet hmem => ?_, hwants⟩
      rw [Multiset.mem_singleton] at hmem
      subst hmem
      exact ⟨hv, htaken _ (Multiset.mem_singleton_self _)⟩
  | unanswered => exact ⟨hnothing, hwants⟩
  | settle => exact ⟨hnothing, hwants⟩

@[simp] theorem become_mark_self (s : State V) (v : V) (mark : Mark V)
    (inFlight : Multiset (Packet V)) : (s.become v mark inFlight).mark v = mark := by
  simp only [State.become, Function.update_self]

@[simp] theorem become_mark_of_ne (s : State V) {v w : V} (hne : w ≠ v) (mark : Mark V)
    (inFlight : Multiset (Packet V)) : (s.become v mark inFlight).mark w = s.mark w := by
  simp only [State.become, Function.update_of_ne hne]

theorem State.Inside.become (hinside : s.Inside S) {v : V} (hv : v ∈ S) {mark : Mark V}
    {inFlight : Multiset (Packet V)}
    (hpackets : ∀ packet ∈ inFlight, packet.source ∈ S ∧ packet.target ∈ S)
    (hwants : ∀ u, mark.wants = some u → u ∈ S) : (s.become v mark inFlight).Inside S := by
  refine ⟨hpackets, fun w u hwant => ?_⟩
  by_cases hwv : w = v
  · subst hwv
    rw [become_mark_self] at hwant
    exact ⟨hv, hwants u hwant⟩
  · rw [become_mark_of_ne s hwv] at hwant
    exact hinside.wants w u hwant

theorem State.Inside.step (hinside : s.Inside S) (hadj : Neighbours S adj)
    (hstep : Step adj S s next) : next.Inside S := by
  cases hstep with
  | @react v taken rest sent mark hv hflight hreact =>
      have hends : ∀ packet ∈ taken + rest, packet.source ∈ S ∧ packet.target ∈ S :=
        hflight ▸ hinside.packets
      obtain ⟨hsent, hwants⟩ := hreact.ends hadj hv
        (fun packet hmem => (hends packet (Multiset.mem_add.mpr (.inl hmem))).1)
        (fun u hwant => (hinside.wants v u hwant).2)
      refine hinside.become hv (fun packet hmem => ?_) hwants
      rcases Multiset.mem_add.mp hmem with hrest | hnew
      · exact hends packet (Multiset.mem_add.mpr (.inr hrest))
      · exact hsent packet hnew
  | @originate v hv lazy =>
      refine hinside.become hv (fun packet hmem => ?_)
        (fun u hwant => (hinside.wants v u hwant).2)
      rcases Multiset.mem_add.mp hmem with hold | hnew
      · exact hinside.packets packet hold
      · obtain ⟨hsource, htarget⟩ := offers_ends hnew
        exact ⟨hsource ▸ hv, hadj.target_mem htarget⟩
  | double hmem =>
      refine ⟨fun packet hpacket => ?_, hinside.wants⟩
      rcases Multiset.mem_cons.mp hpacket with rfl | hold
      · exact hinside.packets packet hmem
      · exact hinside.packets packet hold

end Inside

/-! ## Coverage -/

/-- The message is at the vertex, or something will still bring it there. -/
def State.Coming (s : State V) (v : V) : Prop :=
  (s.mark v).informed = true ∨ (s.mark v).wants ≠ none ∨
    ∃ packet ∈ s.inFlight, packet.seeker = some v

structure State.Sound (adj : V → List V) (s : State V) : Prop where
  held : ∀ packet ∈ s.inFlight, ∀ u, packet.holder = some u → (s.mark u).informed = true
  wanted : ∀ u v, (s.mark v).wants = some u → (s.mark u).informed = true
  served : ∀ u v, (s.mark u).informed = true → v ∈ adj u → s.Coming v

@[simp] theorem holder_offer (lazy : V → Bool) (v w : V) :
    (offer lazy v w).holder = some v := by
  unfold offer
  split
  · rfl
  · rfl

@[simp] theorem seeker_offer (lazy : V → Bool) (v w : V) :
    (offer lazy v w).seeker = some w := by
  unfold offer
  split
  · rfl
  · rfl

section Coverage

variable [DecidableEq V] {adj : V → List V} {v : V} {before after : Mark V}
  {taken sent : Multiset (Packet V)}

theorem Reaction.informed (hreact : Reaction adj v before taken after sent)
    (hinformed : before.informed = true) : after.informed = true := by
  cases hreact with
  | accept => rfl
  | refuse => rfl
  | note => exact hinformed
  | ignore => rfl
  | ask => exact hinformed
  | answer => rfl
  | unanswered => exact hinformed
  | settle => exact hinformed

/-- Whoever a reaction names as a holder is the vertex itself, or was named before. -/
theorem Reaction.holder (hreact : Reaction adj v before taken after sent) {packet : Packet V}
    (hmem : packet ∈ sent) {u : V} (hholder : packet.holder = some u) :
    (u = v ∧ after.informed = true) ∨ before.wants = some u := by
  cases hreact with
  | accept u want lazy =>
      obtain ⟨w, -, rfl⟩ := mem_offers.mp hmem
      rw [holder_offer, Option.some.injEq] at hholder
      exact .inl ⟨hholder.symm, rfl⟩
  | refuse u want =>
      rw [Multiset.mem_singleton] at hmem
      subst hmem
      cases hholder
  | note => exact absurd hmem (Multiset.notMem_zero _)
  | ignore => exact absurd hmem (Multiset.notMem_zero _)
  | ask w informed =>
      rw [Multiset.mem_singleton] at hmem
      subst hmem
      exact .inr hholder
  | answer w want =>
      rw [Multiset.mem_singleton] at hmem
      subst hmem
      exact .inl ⟨(Option.some.inj hholder).symm, rfl⟩
  | unanswered => exact absurd hmem (Multiset.notMem_zero _)
  | settle => exact absurd hmem (Multiset.notMem_zero _)

theorem Reaction.wants (hreact : Reaction adj v before taken after sent) {u : V}
    (hwants : after.wants = some u) :
    before.wants = some u ∨ ∃ packet ∈ taken, packet.holder = some u := by
  cases hreact with
  | accept => cases hwants
  | refuse => exact .inl hwants
  | note w want => exact .inr ⟨_, Multiset.mem_singleton_self _, hwants⟩
  | ignore => exact .inl hwants
  | ask => cases hwants
  | answer => exact .inl hwants
  | unanswered => exact .inl hwants
  | settle => exact .inl hwants

/-- A packet which a reaction takes has done its work, or goes on in another form;
a request to a vertex without the message is the exception. -/
theorem Reaction.seeker (hreact : Reaction adj v before taken after sent)
    {packet : Packet V} (hmem : packet ∈ taken) {w : V} (hseeker : packet.seeker = some w)
    (hheld : packet.holder = some v → before.informed = true) :
    (w = v ∧ (after.informed = true ∨ after.wants ≠ none)) ∨
      ∃ other ∈ sent, other.seeker = some w := by
  cases hreact with
  | accept u want lazy =>
      rw [Multiset.mem_singleton] at hmem
      subst hmem
      exact .inl ⟨(Option.some.inj hseeker).symm, .inl rfl⟩
  | refuse u want =>
      rw [Multiset.mem_singleton] at hmem
      subst hmem
      exact .inl ⟨(Option.some.inj hseeker).symm, .inl rfl⟩
  | note u want =>
      rw [Multiset.mem_singleton] at hmem
      subst hmem
      exact .inl ⟨(Option.some.inj hseeker).symm, .inr (Option.some_ne_none u)⟩
  | ignore u want =>
      rw [Multiset.mem_singleton] at hmem
      subst hmem
      exact .inl ⟨(Option.some.inj hseeker).symm, .inl rfl⟩
  | ask => exact absurd hmem (Multiset.notMem_zero _)
  | answer u want =>
      rw [Multiset.mem_singleton] at hmem
      subst hmem
      exact .inr ⟨_, Multiset.mem_singleton_self _, hseeker⟩
  | unanswered u want =>
      rw [Multiset.mem_singleton] at hmem
      subst hmem
      cases hheld rfl
  | settle u =>
      rw [Multiset.mem_singleton] at hmem
      subst hmem
      cases hseeker

/-- A vertex which wanted to ask wants to still, has asked, or has the message. -/
theorem Reaction.pursues (hreact : Reaction adj v before taken after sent)
    (hwants : before.wants ≠ none) :
    after.informed = true ∨ after.wants ≠ none ∨ ∃ packet ∈ sent, packet.seeker = some v := by
  cases hreact with
  | accept => exact .inl rfl
  | refuse => exact .inl rfl
  | note u want => exact .inr (.inl (Option.some_ne_none u))
  | ignore => exact .inl rfl
  | ask u informed => exact .inr (.inr ⟨_, Multiset.mem_singleton_self _, rfl⟩)
  | answer => exact .inl rfl
  | unanswered => exact .inr (.inl hwants)
  | settle => exact .inr (.inl hwants)

/-- A vertex which a reaction informs has offered the message to all its
neighbours but the one it had it from. -/
theorem Reaction.offered (hreact : Reaction adj v before taken after sent)
    (hnew : before.informed = false) (hinformed : after.informed = true) {w : V}
    (hw : w ∈ adj v) :
    (∃ packet ∈ taken, packet.holder = some w) ∨ ∃ packet ∈ sent, packet.seeker = some w := by
  cases hreact with
  | accept u want lazy =>
      by_cases hwu : w = u
      · exact .inl ⟨_, Multiset.mem_singleton_self _, by rw [hwu]; rfl⟩
      · have hother : w ∈ (adj v).filter fun w => w ≠ u :=
          List.mem_filter.mpr ⟨hw, decide_eq_true hwu⟩
        exact .inr ⟨_, mem_offers.mpr ⟨w, hother, rfl⟩, seeker_offer lazy v w⟩
  | refuse => cases hnew
  | note => cases hinformed
  | ignore => cases hnew
  | ask => rw [hnew] at hinformed; cases hinformed
  | answer => cases hnew
  | unanswered => cases hinformed
  | settle => rw [hnew] at hinformed; cases hinformed

/-- What coverage needs of a change at one vertex. -/
structure Covers (adj : V → List V) (v : V) (before : Mark V) (taken : Multiset (Packet V))
    (after : Mark V) (sent : Multiset (Packet V)) : Prop where
  informed : before.informed = true → after.informed = true
  holder : ∀ packet ∈ sent, ∀ u, packet.holder = some u →
    (u = v ∧ after.informed = true) ∨ before.wants = some u
  wants : ∀ u, after.wants = some u →
    before.wants = some u ∨ ∃ packet ∈ taken, packet.holder = some u
  seeker : ∀ packet ∈ taken, (packet.holder = some v → before.informed = true) →
    ∀ w, packet.seeker = some w →
      (w = v ∧ (after.informed = true ∨ after.wants ≠ none)) ∨
        ∃ other ∈ sent, other.seeker = some w
  pursues : before.wants ≠ none →
    after.informed = true ∨ after.wants ≠ none ∨ ∃ packet ∈ sent, packet.seeker = some v
  offered : before.informed = false → after.informed = true → ∀ w ∈ adj v,
    (∃ packet ∈ taken, packet.holder = some w) ∨ ∃ packet ∈ sent, packet.seeker = some w

theorem Reaction.covers (hreact : Reaction adj v before taken after sent) :
    Covers adj v before taken after sent where
  informed := hreact.informed
  holder _ hmem _ hholder := hreact.holder hmem hholder
  wants _ hwants := hreact.wants hwants
  seeker _ hmem hheld _ hseeker := hreact.seeker hmem hseeker hheld
  pursues := hreact.pursues
  offered hnew hinformed _ hw := hreact.offered hnew hinformed hw

omit [DecidableEq V] in
theorem covers_originate (adj : V → List V) (v : V) (before : Mark V) (lazy : V → Bool) :
    Covers adj v before 0 ⟨true, before.wants⟩ (offers lazy v (adj v)) where
  informed _ := rfl
  holder packet hmem u hholder := by
    obtain ⟨w, -, rfl⟩ := mem_offers.mp hmem
    rw [holder_offer, Option.some.injEq] at hholder
    exact .inl ⟨hholder.symm, rfl⟩
  wants _ hwants := .inl hwants
  seeker packet hmem := absurd hmem (Multiset.notMem_zero packet)
  pursues _ := .inl rfl
  offered _ _ w hw := .inr ⟨_, mem_offers.mpr ⟨w, hw, rfl⟩, seeker_offer lazy v w⟩

variable {s next : State V} {rest : Multiset (Packet V)}

theorem Covers.informed_mono (hcovers : Covers adj v (s.mark v) taken after sent) {u : V}
    (hu : (s.mark u).informed = true) (inFlight : Multiset (Packet V)) :
    ((s.become v after inFlight).mark u).informed = true := by
  by_cases huv : u = v
  · subst huv
    rw [become_mark_self]
    exact hcovers.informed hu
  · rw [become_mark_of_ne s huv]
    exact hu

theorem Covers.coming_mono (hsound : s.Sound adj)
    (hcovers : Covers adj v (s.mark v) taken after sent) (hflight : s.inFlight = taken + rest)
    {w : V} (hcoming : s.Coming w) : (s.become v after (rest + sent)).Coming w := by
  have hsent : ∀ packet ∈ sent, packet.seeker = some w →
      (s.become v after (rest + sent)).Coming w := fun packet hmem hseeker =>
    .inr (.inr ⟨packet, Multiset.mem_add.mpr (.inr hmem), hseeker⟩)
  rcases hcoming with hinformed | hwants | ⟨packet, hmem, hseeker⟩
  · exact .inl (hcovers.informed_mono hinformed _)
  · by_cases hwv : w = v
    · subst hwv
      rcases hcovers.pursues hwants with hafter | hafter | ⟨packet, hmem, hseeker⟩
      · exact .inl (by rw [become_mark_self]; exact hafter)
      · exact .inr (.inl (by rw [become_mark_self]; exact hafter))
      · exact hsent packet hmem hseeker
    · exact .inr (.inl (by rw [become_mark_of_ne s hwv]; exact hwants))
  · have hheld : packet.holder = some v → (s.mark v).informed = true :=
      hsound.held packet hmem v
    rw [hflight, Multiset.mem_add] at hmem
    rcases hmem with htaken | hrest
    · rcases hcovers.seeker packet htaken hheld w hseeker with
        ⟨rfl, hafter⟩ | ⟨other, hother, hseeker⟩
      · rcases hafter with hafter | hafter
        · exact .inl (by rw [become_mark_self]; exact hafter)
        · exact .inr (.inl (by rw [become_mark_self]; exact hafter))
      · exact hsent other hother hseeker
    · exact .inr (.inr ⟨packet, Multiset.mem_add.mpr (.inl hrest), hseeker⟩)

theorem State.Sound.become (hsound : s.Sound adj)
    (hcovers : Covers adj v (s.mark v) taken after sent)
    (hflight : s.inFlight = taken + rest) :
    (s.become v after (rest + sent)).Sound adj := by
  have htaken : ∀ packet ∈ taken, ∀ u, packet.holder = some u →
      (s.mark u).informed = true := fun packet hmem =>
    hsound.held packet (hflight ▸ Multiset.mem_add.mpr (.inl hmem))
  refine ⟨?_, ?_, ?_⟩
  · intro packet hmem u hholder
    rcases Multiset.mem_add.mp hmem with hrest | hsent
    · refine hcovers.informed_mono (hsound.held packet ?_ u hholder) _
      exact hflight ▸ Multiset.mem_add.mpr (.inr hrest)
    · rcases hcovers.holder packet hsent u hholder with ⟨rfl, hafter⟩ | hwants
      · rw [become_mark_self]
        exact hafter
      · exact hcovers.informed_mono (hsound.wanted u v hwants) _
  · intro u w hwants
    apply hcovers.informed_mono
    by_cases hwv : w = v
    · subst hwv
      rw [become_mark_self] at hwants
      rcases hcovers.wants u hwants with hbefore | ⟨packet, hmem, hholder⟩
      · exact hsound.wanted u w hbefore
      · exact htaken packet hmem u hholder
    · rw [become_mark_of_ne s hwv] at hwants
      exact hsound.wanted u w hwants
  · intro u w hinformed hw
    cases hbefore : (s.mark u).informed with
    | true => exact hcovers.coming_mono hsound hflight (hsound.served u w hbefore hw)
    | false =>
        obtain rfl : u = v := by
          by_contra hne
          rw [become_mark_of_ne s hne, hbefore] at hinformed
          cases hinformed
        rw [become_mark_self] at hinformed
        rcases hcovers.offered hbefore hinformed w hw with
          ⟨packet, hmem, hholder⟩ | ⟨packet, hmem, hseeker⟩
        · exact .inl (hcovers.informed_mono (htaken packet hmem w hholder) _)
        · exact .inr (.inr ⟨packet, Multiset.mem_add.mpr (.inr hmem), hseeker⟩)

theorem State.Sound.step {S : Finset V} (hsound : s.Sound adj) (hstep : Step adj S s next) :
    next.Sound adj := by
  cases hstep with
  | react _ hflight hreact => exact hsound.become hreact.covers hflight
  | @originate v _ lazy =>
      exact hsound.become (covers_originate adj v (s.mark v) lazy) (zero_add _).symm
  | @double packet hmem =>
      refine ⟨?_, hsound.wanted, ?_⟩
      · intro other hother
        rcases Multiset.mem_cons.mp hother with rfl | hother
        · exact hsound.held other hmem
        · exact hsound.held other hother
      · intro u v hinformed hv
        rcases hsound.served u v hinformed hv with hu | hwants | ⟨other, hother, hseeker⟩
        · exact .inl hu
        · exact .inr (.inl hwants)
        · exact .inr (.inr ⟨other, Multiset.mem_cons_of_mem hother, hseeker⟩)

/-- Nothing is in flight, and nobody waits. -/
structure State.Settled (s : State V) : Prop where
  inFlight : s.inFlight = 0
  wants : ∀ v, (s.mark v).wants = none

omit [DecidableEq V] in
theorem State.Sound.informed_of_settled (hsound : s.Sound adj) (hsettled : s.Settled)
    {u : V} (hu : (s.mark u).informed = true) (hv : v ∈ adj u) :
    (s.mark v).informed = true := by
  rcases hsound.served u v hu hv with hinformed | hwants | ⟨packet, hmem, -⟩
  · exact hinformed
  · exact absurd (hsettled.wants v) hwants
  · rw [hsettled.inFlight] at hmem
    exact absurd hmem (Multiset.notMem_zero packet)

omit [DecidableEq V] in
/-- In a settled state one informed vertex of a connected graph means that all are. -/
theorem State.Sound.informed_all {S : Finset V} (hadj : Neighbours S adj)
    (hconnected : (graph S adj).Connected) (hsound : s.Sound adj) (hsettled : s.Settled)
    {root : V} (hroot : root ∈ S) (hinformed : (s.mark root).informed = true) {v : V}
    (hv : v ∈ S) : (s.mark v).informed = true := by
  obtain ⟨walk⟩ := hconnected.preconnected ⟨root, hroot⟩ ⟨v, hv⟩
  have hwalk : ∀ {x y : {v // v ∈ S}}, (graph S adj).Walk x y →
      (s.mark x.1).informed = true → (s.mark y.1).informed = true := by
    intro x y walk
    induction walk with
    | nil => exact id
    | cons hstep _ ih =>
        intro hx
        rcases ((SimpleGraph.fromRel_adj _ _ _).mp hstep).2 with hmem | hmem
        · exact ih (hsound.informed_of_settled hsettled hx hmem)
        · exact ih (hsound.informed_of_settled hsettled hx (hadj.symm hmem))
  exact hwalk walk hinformed

end Coverage

/-! ## Work -/

/-- What a packet can still lead to: a copy is at worst refused, a request brings a
copy, and a notice is at worst noted and turned into a request later. -/
def Packet.weight : Packet V → ℕ
  | .copy _ _ => 2
  | .notice _ _ => 5
  | .request _ _ => 3
  | .refusal _ _ => 1

def load (packets : Multiset (Packet V)) : ℕ := (packets.map Packet.weight).sum

@[simp] theorem load_zero : load (0 : Multiset (Packet V)) = 0 := rfl

@[simp] theorem load_add (a b : Multiset (Packet V)) : load (a + b) = load a + load b := by
  rw [load, Multiset.map_add, Multiset.sum_add]
  rfl

@[simp] theorem load_singleton (packet : Packet V) :
    load ({packet} : Multiset (Packet V)) = packet.weight := by
  rw [load, Multiset.map_singleton, Multiset.sum_singleton]

theorem card_le_load (packets : Multiset (Packet V)) : packets.card ≤ load packets := by
  induction packets using Multiset.induction_on with
  | empty => exact le_refl 0
  | cons packet rest ih =>
      have hpos : 1 ≤ packet.weight := by
        cases packet with
        | copy => exact Nat.le_add_left 1 1
        | notice => exact Nat.le_add_left 1 4
        | request => exact Nat.le_add_left 1 2
        | refusal => exact le_refl 1
      rw [← Multiset.singleton_add, load_add, load_singleton, Multiset.card_add,
        Multiset.card_singleton]
      exact Nat.add_le_add hpos ih

theorem load_offers_le (lazy : V → Bool) (v : V) (targets : List V) :
    load (offers lazy v targets) ≤ 5 * targets.length := by
  induction targets with
  | nil => exact le_refl 0
  | cons w rest ih =>
      have hsplit : offers lazy v (w :: rest) = {offer lazy v w} + offers lazy v rest := rfl
      have hoffer : (offer lazy v w).weight ≤ 5 := by
        unfold offer
        split
        · exact le_refl 5
        · exact Nat.le_add_right 2 3
      rw [hsplit, load_add, load_singleton, List.length_cons]
      omega

section Work

variable [DecidableEq V] {adj : V → List V} {v : V} {before after : Mark V}
  {taken sent : Multiset (Packet V)}

def Mark.work (mark : Mark V) (degree : ℕ) : ℕ :=
  (if mark.informed = true then 0 else 5 * degree) + if mark.wants = none then 0 else 4

/-- A reaction uses up at least what it takes. -/
theorem Reaction.work (hreact : Reaction adj v before taken after sent) :
    after.work (adj v).length + load sent + taken.card ≤
      before.work (adj v).length + load taken := by
  cases hreact with
  | accept u want lazy =>
      have hoffers := load_offers_le lazy v ((adj v).filter fun w => w ≠ u)
      have hfewer := List.length_filter_le (fun w => decide (w ≠ u)) (adj v)
      rw [load_singleton, Multiset.card_singleton]
      simp only [Mark.work, Packet.weight, if_true, Bool.false_eq_true, if_false]
      omega
  | refuse u want => simp [Mark.work, Packet.weight]
  | note u want =>
      rw [load_singleton, Multiset.card_singleton, load_zero]
      simp only [Mark.work, Packet.weight, Bool.false_eq_true, if_false, reduceCtorEq]
      omega
  | ignore u want => simp [Mark.work, Packet.weight]
  | ask u informed => simp [Mark.work, Packet.weight]
  | answer u want => simp [Mark.work, Packet.weight]
  | unanswered u want => simp [Mark.work, Packet.weight]
  | settle u => simp [Mark.work, Packet.weight]

omit [DecidableEq V] in
/-- An origination at a vertex without the message only uses what it stood for. -/
theorem work_offered (adj : V → List V) (v : V) (lazy : V → Bool)
    (hnew : before.informed = false) :
    Mark.work ⟨true, before.wants⟩ (adj v).length + load (offers lazy v (adj v)) ≤
      before.work (adj v).length := by
  have hoffers := load_offers_le lazy v (adj v)
  simp only [Mark.work, hnew, if_true, Bool.false_eq_true, if_false]
  omega

variable (S : Finset V) (adj) in
def State.work (s : State V) : ℕ :=
  ∑ v ∈ S, (s.mark v).work (adj v).length + load s.inFlight

/-- The work at the other vertices is not touched. -/
theorem State.work_become (adj : V → List V) {S : Finset V} (s : State V) (hv : v ∈ S)
    (mark : Mark V) (inFlight : Multiset (Packet V)) :
    (s.become v mark inFlight).work adj S + (s.mark v).work (adj v).length =
      ∑ w ∈ S, (s.mark w).work (adj w).length + mark.work (adj v).length +
        load inFlight := by
  have hothers : ∑ w ∈ S.erase v, ((s.become v mark inFlight).mark w).work (adj w).length =
      ∑ w ∈ S.erase v, (s.mark w).work (adj w).length := by
    apply Finset.sum_congr rfl
    intro w hw
    rw [become_mark_of_ne s (Finset.ne_of_mem_erase hw)]
  have hnext := Finset.sum_erase_add S
    (fun w => ((s.become v mark inFlight).mark w).work (adj w).length) hv
  have hbefore := Finset.sum_erase_add S (fun w => (s.mark w).work (adj w).length) hv
  rw [become_mark_self, hothers] at hnext
  unfold State.work
  rw [← hnext, ← hbefore]
  change _ + _ + load inFlight + _ = _
  omega

theorem State.work_react {S : Finset V} {s : State V} {rest : Multiset (Packet V)}
    (hv : v ∈ S) (hflight : s.inFlight = taken + rest)
    (hreact : Reaction adj v (s.mark v) taken after sent) :
    (s.become v after (rest + sent)).work adj S + taken.card ≤ s.work adj S := by
  have hbecome := State.work_become adj s hv after (rest + sent)
  have hlocal := hreact.work
  have hwork : s.work adj S =
      ∑ w ∈ S, (s.mark w).work (adj w).length + (load taken + load rest) := by
    rw [State.work, hflight, load_add]
  rw [load_add] at hbecome
  omega

theorem State.work_originate (adj : V → List V) {S : Finset V} {s : State V} (hv : v ∈ S)
    (hnew : (s.mark v).informed = false) (lazy : V → Bool) :
    (originate adj s v lazy).work adj S ≤ s.work adj S := by
  have hbecome := State.work_become adj s hv ⟨true, (s.mark v).wants⟩
    (s.inFlight + offers lazy v (adj v))
  have hlocal := work_offered adj v lazy hnew
  have hwork : s.work adj S =
      ∑ w ∈ S, (s.mark w).work (adj w).length + load s.inFlight := rfl
  rw [load_add] at hbecome
  rw [originate]
  omega

end Work

end LazyRepair
end LibWake
