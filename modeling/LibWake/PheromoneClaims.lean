import LibWake.PheromoneSnapshots

/-!
# Claims of one slot

As long as nothing is removed and no decay runs, a slot which holds a key is never claimed again,
so no two insertions write one slot at a time.
-/

namespace LibWake
namespace Pheromone

variable {n : ℕ} {P : Type} [DecidableEq P] {entityHash : Memory n → UInt64}

/-- The process has swapped its key into the slot and not yet unlocked the version. -/
def Job.claims (idx : ℕ) : Job n → Bool
  | .insert _ (.loadVersion i) | .insert _ (.lockVersion i _) | .cold _ i _ _ => i = idx
  | _ => false

/-- A removal or a decay. -/
def FleetEvent.maintains : FleetEvent P n → Bool
  | .start _ (.remove _) | .start _ .decay => true
  | _ => false

/-- Slots which are only ever claimed. -/
structure Claimed (s : Fleet P n) : Prop where
  sole : ∀ p q idx, (s.job p).claims idx = true → (s.job q).claims idx = true → p = q
  live : ∀ p idx, (s.job p).claims idx = true → (s.table.entries idx).Live
  dead : ∀ p args idx expected, s.job p = .insert args (.swap idx expected) →
    expected = slotEmpty ∨ expected = slotTombstone
  unmaintained : ∀ p phase, s.job p ≠ .maintain phase

section Claims

variable {s next start final : Fleet P n} {event : FleetEvent P n}
  {events : List (FleetEvent P n)} {p : P} {h : Header} {key : UInt64}
  {entries : ℕ → Entry (Memory n)}

omit [DecidableEq P] in
theorem keyHash_update {i : ℕ} {entry : Entry (Memory n)}
    (hkey : entry.keyHash = (entries i).keyHash) (idx : ℕ) :
    (Function.update entries i entry idx).keyHash = (entries idx).keyHash := by
  by_cases heq : idx = i
  · rw [heq, Function.update_self, hkey]
  · rw [Function.update_of_ne heq]

omit [DecidableEq P] in
/-- Only a successful swap changes a key hash, and only behind one is a slot claimed. -/
theorem stepPhase_key {args : Deposit (Memory n)} {phase : Phase}
    {after : (ℕ → Entry (Memory n)) × Phase}
    (hstep : stepPhase h key args entries phase = some after) :
    (∃ idx expected, phase = .swap idx expected ∧ (entries idx).keyHash = expected ∧
      after = (Function.update entries idx { entries idx with keyHash := key },
        .loadVersion idx)) ∨
      (∀ idx, (after.1 idx).keyHash = (entries idx).keyHash) ∧
        (∀ idx, after.2 ≠ .loadVersion idx) ∧
        ∀ idx expected, after.2 = .swap idx expected →
          expected = slotEmpty ∨ expected = slotTombstone := by
  cases phase with
  | swap i expected =>
      simp only [stepPhase] at hstep
      split_ifs at hstep with hsame
      · exact .inl ⟨i, expected, rfl, hsame, (Option.some.inj hstep).symm⟩
      · cases hstep
        exact .inr ⟨fun _ => rfl, by simp, by simp⟩
      · cases hstep
        exact .inr ⟨fun _ => rfl, by simp, by simp⟩
  | recheck i =>
      right
      simp only [stepPhase] at hstep
      split_ifs at hstep with hlive <;> cases hstep
      · exact ⟨fun _ => rfl, by simp, by simp⟩
      · refine ⟨fun _ => rfl, by simp, fun idx expected heq => ?_⟩
        obtain ⟨rfl, rfl⟩ := Phase.swap.inj heq
        tauto
  | probing probe first =>
      right
      simp only [stepPhase, nextProbe] at hstep
      have hplain : ∀ other : Option ℕ, (∀ idx, afterProbe other ≠ .loadVersion idx) ∧
          ∀ idx expected, afterProbe other ≠ .swap idx expected := by
        intro other
        cases other <;> simp [afterProbe]
      split_ifs at hstep <;> cases hstep
      all_goals
        refine ⟨fun _ => rfl, ?_, ?_⟩
        · first | exact (hplain _).1 | simp
        · first | exact fun idx expected heq => absurd heq ((hplain _).2 idx expected) | simp
  | returned value => cases hstep
  | clearReason i j =>
      right
      cases hstep
      refine ⟨keyHash_update (by rfl), ?_⟩
      fin_cases j <;> simp
  | storeUpdate i newConf =>
      right
      cases hstep
      refine ⟨keyHash_update (by rfl), ?_⟩
      unfold afterUpdate afterSrc
      split_ifs <;> simp
  | addSrc i newConf =>
      right
      cases hstep
      refine ⟨keyHash_update (by rfl), ?_⟩
      unfold afterSrc
      split_ifs <;> simp
  | loadVersion i =>
      cases hstep
      exact .inr ⟨fun _ => rfl, by simp, by simp⟩
  | _ =>
      right
      cases hstep
      exact ⟨keyHash_update (by rfl), by simp, by simp⟩

/-- A step which leaves the key hashes and claims nothing new. -/
theorem Claimed.become (hclaimed : Claimed s) {after : (ℕ → Entry (Memory n)) × Job n}
    (hkey : ∀ idx, (after.1 idx).keyHash = (s.table.entries idx).keyHash)
    (hclaims : ∀ idx, after.2.claims idx = true → (s.job p).claims idx = true)
    (hdead : ∀ args idx expected, after.2 = .insert args (.swap idx expected) →
      expected = slotEmpty ∨ expected = slotTombstone)
    (hread : ∀ phase, after.2 ≠ .maintain phase) : Claimed (s.become p after) := by
  have hback : ∀ q idx, ((s.become p after).job q).claims idx = true →
      (s.job q).claims idx = true := by
    intro q idx hq
    by_cases hqp : q = p
    · subst hqp
      rw [become_job_self] at hq
      exact hclaims idx hq
    · rwa [become_job_of_ne s hqp] at hq
  refine ⟨fun q r idx hq hr => hclaimed.sole q r idx (hback q idx hq) (hback r idx hr),
    fun q idx hq => ?_, fun q args idx expected hq => ?_, fun q phase hq => ?_⟩
  · have hlive := hclaimed.live q idx (hback q idx hq)
    change (after.1 idx).Live
    unfold Entry.Live at hlive ⊢
    rw [hkey idx]
    exact hlive
  · by_cases hqp : q = p
    · rw [hqp, become_job_self] at hq
      exact hdead args idx expected hq
    · rw [become_job_of_ne s hqp] at hq
      exact hclaimed.dead q args idx expected hq
  · by_cases hqp : q = p
    · rw [hqp, become_job_self] at hq
      exact hread phase hq
    · rw [become_job_of_ne s hqp] at hq
      exact hclaimed.unmaintained q phase hq

/-- A slot which is swapped was dead, so nobody had claimed it. -/
theorem Claimed.swap (hclaimed : Claimed s) {args : Deposit (Memory n)} {idx : ℕ}
    {expected : UInt64} (hjob : s.job p = .insert args (.swap idx expected))
    (hsame : (s.table.entries idx).keyHash = expected) :
    Claimed (s.become p
      (Function.update s.table.entries idx
        { s.table.entries idx with keyHash := entityKeyHash entityHash args.entity },
        .insert args (.loadVersion idx))) := by
  have hdead := hclaimed.dead p args idx expected hjob
  have hnobody : ∀ q, (s.job q).claims idx = false := by
    intro q
    by_contra hq
    obtain ⟨hempty, htomb⟩ := hclaimed.live q idx (Bool.eq_true_of_not_eq_false hq)
    rw [hsame] at hempty htomb
    exact hdead.elim hempty htomb
  have hown : ∀ j, Job.claims j (.insert args (.loadVersion idx) : Job n) = true → j = idx :=
    fun j hj => (of_decide_eq_true hj).symm
  have hother : ∀ q j, q ≠ p →
      ((s.become p (Function.update s.table.entries idx
          { s.table.entries idx with keyHash := entityKeyHash entityHash args.entity },
        .insert args (.loadVersion idx))).job q).claims j = true →
      (s.job q).claims j = true ∧ j ≠ idx := by
    intro q j hqp hq
    rw [become_job_of_ne s hqp] at hq
    refine ⟨hq, ?_⟩
    rintro rfl
    rw [hnobody q] at hq
    cases hq
  refine ⟨fun q r j hq hr => ?_, fun q j hq => ?_, fun q other j value hq => ?_,
    fun q phase hq => ?_⟩
  · by_cases hqp : q = p
    · by_cases hrp : r = p
      · rw [hqp, hrp]
      · rw [hqp, become_job_self] at hq
        exact absurd (hown j hq) (hother r j hrp hr).2
    · by_cases hrp : r = p
      · rw [hrp, become_job_self] at hr
        exact absurd (hown j hr) (hother q j hqp hq).2
      · exact hclaimed.sole q r j (hother q j hqp hq).1 (hother r j hrp hr).1
  · change (Function.update s.table.entries idx _ j).Live
    by_cases hj : j = idx
    · rw [hj, Function.update_self]
      exact entityKeyHash_ne_sentinel entityHash args.entity
    · rw [Function.update_of_ne hj]
      by_cases hqp : q = p
      · rw [hqp, become_job_self] at hq
        exact absurd (hown j hq) hj
      · exact hclaimed.live q j (hother q j hqp hq).1
  · by_cases hqp : q = p
    · rw [hqp, become_job_self] at hq
      cases hq
    · rw [become_job_of_ne s hqp] at hq
      exact hclaimed.dead q other j value hq
  · by_cases hqp : q = p
    · rw [hqp, become_job_self] at hq
      cases hq
    · rw [become_job_of_ne s hqp] at hq
      exact hclaimed.unmaintained q phase hq

omit [DecidableEq P] in
/-- Behind any other step the insertion claims at most the slot which it had claimed. -/
theorem stepPhase_claims {args : Deposit (Memory n)} {phase : Phase}
    {after : (ℕ → Entry (Memory n)) × Phase} (hcold : phase.isCold = false)
    (hstep : stepPhase h key args entries phase = some after)
    (hnew : ∀ idx, after.2 ≠ .loadVersion idx) {idx : ℕ}
    (hclaims : (arriveAt args after.2).claims idx = true) :
    (Job.insert args phase).claims idx = true := by
  by_cases hplain : phase.isPlain = true
  · have hseat := seatAt_eq_none_iff.mp (stepPhase_plain hplain hstep idx).2
    cases hafter : after.2 with
    | loadVersion i => exact absurd hafter (hnew i)
    | lockVersion i ver =>
        rw [hafter] at hclaims hseat
        exact absurd (hclaims.symm.trans hseat) (by simp)
    | writeCold i writeVer =>
        rw [hafter] at hclaims hseat
        exact absurd (hclaims.symm.trans hseat) (by simp)
    | _ =>
        rw [hafter] at hclaims
        cases hclaims
  · cases phase with
    | loadVersion i =>
        cases hstep
        exact hclaims
    | lockVersion i ver =>
        cases hstep
        exact hclaims
    | writeCold i writeVer => cases hcold
    | unlockVersion i writeVer => cases hcold
    | _ => exact absurd rfl hplain

theorem Claimed.work (hclaimed : Claimed s) {after : (ℕ → Entry (Memory n)) × Job n}
    (hstep : stepJob entityHash s.table.header s.table.entries (s.job p) = some after) :
    Claimed (s.become p after) := by
  cases hjob : s.job p with
  | idle =>
      rw [hjob] at hstep
      cases hstep
  | maintain phase => exact absurd hjob (hclaimed.unmaintained p phase)
  | read reader =>
      rw [hjob] at hstep
      obtain ⟨done, -, rfl⟩ := Option.map_eq_some_iff.mp hstep
      refine hclaimed.become (fun _ => rfl) (fun idx hfalse => ?_) (by simp) (by simp)
      cases hfalse
  | cold args i writeVer todo =>
      rw [hjob] at hstep
      cases todo with
      | cons field rest => cases hstep
      | nil =>
          cases hstep
          refine hclaimed.become (keyHash_update (by rfl)) (fun idx hfalse => ?_)
            (by simp [arriveAt]) (by simp [arriveAt])
          cases hfalse
  | insert args phase =>
      rw [hjob] at hstep
      simp only [stepJob] at hstep
      split_ifs at hstep with hcold
      obtain ⟨done, hdone, rfl⟩ := Option.map_eq_some_iff.mp hstep
      rcases stepPhase_key hdone with ⟨idx, expected, rfl, hsame, rfl⟩ | ⟨hkey, hnew, hdead⟩
      · exact hclaimed.swap hjob hsame
      · refine hclaimed.become hkey (fun idx hclaims => ?_) ?_ fun other => ?_
        · rw [hjob]
          exact stepPhase_claims (Bool.eq_false_of_not_eq_true hcold) hdone hnew hclaims
        · intro other idx expected hswap
          refine hdead idx expected ?_
          cases hafter : done.2 with
          | swap i value =>
              rw [hafter] at hswap
              exact (Job.insert.inj hswap).2
          | writeCold i writeVer =>
              rw [hafter] at hswap
              cases hswap
          | _ =>
              rw [hafter] at hswap
              exact (Job.insert.inj hswap).2
        · cases done.2 <;> simp [arriveAt]

theorem Claimed.copy (hclaimed : Claimed s) {field : Field n}
    {after : (ℕ → Entry (Memory n)) × Job n}
    (hstep : copyJob entityHash s.table.header s.table.entries field (s.job p) = some after) :
    Claimed (s.become p after) := by
  cases hjob : s.job p with
  | cold args i writeVer todo =>
      rw [hjob] at hstep
      cases field with
      | hot field => cases hstep
      | cold field =>
          simp only [copyJob] at hstep
          split_ifs at hstep
          cases hstep
          refine hclaimed.become (keyHash_update ?_) (fun idx hclaims => ?_) (by simp) (by simp)
          · cases field <;> rfl
          · rw [hjob]
            exact hclaims
  | read reader =>
      rw [hjob] at hstep
      cases reader with
      | copying slot v1 todo out =>
          simp only [copyJob] at hstep
          split_ifs at hstep
          cases hstep
          refine hclaimed.become (fun _ => rfl) (fun idx hfalse => ?_) (by simp) (by simp)
          cases hfalse
      | _ => cases hstep
  | _ =>
      rw [hjob] at hstep
      cases hstep

theorem Claimed.step (hclaimed : Claimed s) (hquiet : event.maintains = false)
    (hstep : fleetStep entityHash s event = some next) : Claimed next := by
  cases event with
  | start p request =>
      simp only [fleetStep] at hstep
      split_ifs at hstep
      cases hstep
      cases request with
      | remove entity => cases hquiet
      | decay => cases hquiet
      | deposit args =>
          refine hclaimed.become (fun _ => rfl) (fun idx hfalse => ?_) (by simp [Request.job])
            (by simp [Request.job])
          cases hfalse
      | readEntry slot out =>
          refine hclaimed.become (fun _ => rfl) (fun idx hfalse => ?_) (by simp [Request.job])
            (by simp [Request.job])
          cases hfalse
  | work p =>
      obtain ⟨after, hafter, rfl⟩ := Option.map_eq_some_iff.mp hstep
      exact hclaimed.work hafter
  | copy p field =>
      obtain ⟨after, hafter, rfl⟩ := Option.map_eq_some_iff.mp hstep
      exact hclaimed.copy hafter

omit [DecidableEq P] in
theorem Claimed.apart (hclaimed : Claimed s) (event : FleetEvent P n) : Apart s event := by
  cases event with
  | work p =>
      intro idx hloads q
      by_contra hwrites
      have hwrites := Bool.eq_true_of_not_eq_false hwrites
      have hq : (s.job q).claims idx = true := by
        cases hjob : s.job q with
        | insert args phase =>
            rw [hjob] at hwrites
            cases phase <;> first | exact hwrites | cases hwrites
        | cold args i writeVer todo =>
            rw [hjob] at hwrites
            exact hwrites
        | _ =>
            rw [hjob] at hwrites
            cases hwrites
      cases hjob : s.job p with
      | insert args phase =>
          rw [hjob] at hloads
          cases phase with
          | loadVersion i =>
              obtain rfl := Option.some.inj hloads
              have hp : (s.job p).claims i = true := by
                rw [hjob]
                exact decide_eq_true rfl
              obtain rfl := hclaimed.sole p q i hp hq
              rw [hjob] at hwrites
              cases hwrites
          | _ => cases hloads
      | _ =>
          rw [hjob] at hloads
          cases hloads
  | _ => trivial

theorem claimed_of_initial (hinitial : (fleet (P := P) entityHash).Initial start) :
    Claimed start := by
  have hidle := hinitial.1
  refine ⟨fun p q idx hp => ?_, fun p idx hp => ?_, fun p args idx expected hp => ?_,
    fun p phase hp => ?_⟩ <;> rw [hidle p] at hp <;> cases hp

/-- As long as nothing is removed and no decay runs, at most one process is between its swap of
the key and its second version store at any slot; so the insertions keep apart. -/
theorem claims_keep_apart (hinitial : (fleet entityHash).Initial start)
    (hquiet : ∀ event ∈ events, event.maintains = false)
    (hrun : (fleet entityHash).run start events = some final) :
    (∀ p q idx, (final.job p).claims idx = true → (final.job q).claims idx = true → p = q) ∧
      (fleet entityHash).RunMeets Apart start events := by
  have hstart := claimed_of_initial hinitial
  have hfinal := (fleet entityHash).run_invariant_of_runMeets
    (fun _ _ _ hclaimed hquiet hstep => hclaimed.step hquiet hstep) hstart
    ((fleet entityHash).runMeets_of_forall_mem start hquiet) hrun
  refine ⟨hfinal.sole, ?_⟩
  clear hrun hfinal hinitial
  induction events generalizing start with
  | nil => trivial
  | cons event rest ih =>
      refine ⟨hstart.apart event, fun next hstep => ?_⟩
      exact ih (fun other hmem => hquiet other (List.mem_cons_of_mem event hmem))
        (hstart.step (hquiet event List.mem_cons_self) hstep)

/-- Two deposits of one entity, one step each in turn. -/
def contending : List (FleetEvent Bool 1) :=
  [.start false (.deposit tip), .start true (.deposit tip), .work false, .work true, .work false,
    .work true, .work false, .work true, .work false]

theorem claims_keep_apart_contending :
    ∃ final, (fleet fun _ => 5).run unused contending = some final ∧
      (final.job false).claims 5 = true ∧
      (fleet fun _ => 5).RunMeets Apart unused contending := by
  have hclaims : (((fleet fun _ => 5).run unused contending).any fun final =>
      (final.job false).claims 5) = true := by decide +kernel
  obtain ⟨final, hrun, hfinal⟩ := (Option.any_eq_true _ _).mp hclaims
  exact ⟨final, hrun, hfinal, (claims_keep_apart initial_unused (by decide) hrun).2⟩

end Claims

end Pheromone
end LibWake
