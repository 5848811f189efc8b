/-
  `LFObjectPool` and `LFStack` are lock-free: a call that has to start over does so because another one has
  got its CAS through.

  A caller that has read `top_stamp_` goes back if the word is not the same at its CAS.  It is the same
  until somebody's CAS succeeds, and each call has one on the pool and one on the stack.  So the steps of
  all callers together are bounded by their calls, in any interleaving: so many for each call, and three
  for each other caller that it may send back.
-/
import JunCore.Lib.Contention
import JunCore.Common.LFStack

set_option linter.unusedVariables false
set_option linter.unusedSectionVars false

namespace JunCore.LFObjectPool

open Transition Function LFQueueSteps Contention

/-! ## `LFObjectPool` -/

/-- The word it has read is not the same any more. -/
def Pc.stale (m : Pool) : Pc → Bool
  | .loadNext top _ | .casTop top _ _ | .storeNext _ top | .pushTop _ top => !m.topStamp.same top
  | _ => false

/-- The steps to the end of its call, if its CAS succeeds. -/
def Pc.rest : Pc → Nat
  | .idle => 0
  | .allocated _ | .freed | .thrown _ => 1
  | .countUse _ | .create | .discountUse => 2
  | .construct _ | .growUse | .pushTop _ _ => 3
  | .casTop _ _ _ | .growCapacity | .storeNext _ _ => 4
  | .loadNext _ _ | .reloadTop _ => 5
  | .loadTop | .destruct _ => 6
  | .check _ => 7

/-- Its CAS is still to come. -/
def Pc.contends : Pc → Nat
  | .loadTop | .loadNext _ _ | .casTop _ _ _ | .check _ | .destruct _ | .reloadTop _ | .storeNext _ _
  | .pushTop _ _ => 1
  | _ => 0

/-- With what is put aside for `n` callers; to go back costs three steps. -/
def Pc.potential (n : Nat) (m : Pool) (pc : Pc) : Nat :=
  pc.rest + 3 * n * pc.contends + 3 * (pc.stale m).toNat

theorem same_refl {P : Type} [DecidableEq P] (a : Stamped P) : a.same a = true := by
  simp [Stamped.same]

/-- Whoever has not just read the word may find that it is another one now. -/
theorem Pc.potential_le (n : Nat) (m m' : Pool) (pc : Pc) : pc.potential n m' ≤ pc.potential n m + 3 := by
  unfold Pc.potential
  have := Bool.toNat_le (pc.stale m')
  omega

theorem Pc.potential_congr (n : Nat) {m m' : Pool} (h : m'.topStamp = m.topStamp) (pc : Pc) :
    pc.potential n m' = pc.potential n m := by
  have hstale : pc.stale m' = pc.stale m := by
    cases pc <;> simp only [Pc.stale, h]
  unfold Pc.potential
  rw [hstale]

/-- **A step** leaves the word as it is, or gets its CAS through. -/
theorem Pc.run_potential (n : Nat) (m : Pool) {pc : Pc} (hpc : pc ≠ .idle) :
    (pc.run m).1.topStamp = m.topStamp ∧
      (pc.run m).2.potential n (pc.run m).1 + 1 ≤ pc.potential n m ∨
    (pc.run m).2.potential n (pc.run m).1 + 3 * n + 1 ≤ pc.potential n m := by
  cases pc with
  | idle => exact absurd rfl hpc
  | loadTop =>
    refine .inl ?_
    simp only [Pc.run]
    split
    · refine ⟨rfl, ?_⟩
      simp only [Pc.potential, Pc.rest, Pc.contends, Pc.stale, same_refl, Bool.not_true, Bool.toNat_false]
      omega
    · refine ⟨rfl, ?_⟩
      simp only [Pc.potential, Pc.rest, Pc.contends, Pc.stale, Bool.toNat_false]
      omega
  | loadNext top p =>
    refine .inl ⟨rfl, ?_⟩
    simp only [Pc.run, Pc.potential, Pc.rest, Pc.contends, Pc.stale]
    omega
  | casTop top p next =>
    simp only [Pc.run]
    split
    · refine .inr ?_
      dsimp only
      split
      · simp only [Pc.potential, Pc.rest, Pc.contends, Pc.stale, Bool.toNat_false]
        omega
      · simp only [Pc.potential, Pc.rest, Pc.contends, Pc.stale, Bool.toNat_false]
        omega
    · rename_i hsame
      refine .inl ⟨rfl, ?_⟩
      simp only [Pc.potential, Pc.rest, Pc.contends, Pc.stale, Bool.eq_false_iff.mpr hsame, Bool.not_false,
        Bool.toNat_true, Bool.toNat_false]
      omega
  | pushTop p top =>
    simp only [Pc.run]
    split
    · refine .inr ?_
      simp only [Pc.potential, Pc.rest, Pc.contends, Pc.stale, Bool.toNat_false]
      omega
    · rename_i hsame
      refine .inl ⟨rfl, ?_⟩
      simp only [Pc.potential, Pc.rest, Pc.contends, Pc.stale, Bool.eq_false_iff.mpr hsame, Bool.not_false,
        Bool.toNat_true, Bool.toNat_false]
      omega
  | reloadTop p =>
    refine .inl ⟨rfl, ?_⟩
    simp only [Pc.run, Pc.potential, Pc.rest, Pc.contends, Pc.stale, same_refl, Bool.not_true,
      Bool.toNat_false]
    omega
  | storeNext p top =>
    refine .inl ⟨rfl, ?_⟩
    simp only [Pc.run, Pc.potential, Pc.rest, Pc.contends, Pc.stale]
    omega
  | check p =>
    refine .inl ?_
    have hthrown : ∀ text, (Pc.thrown text).potential n m + 1 ≤ (Pc.check p).potential n m := by
      intro text
      simp only [Pc.potential, Pc.rest, Pc.contends, Pc.stale, Bool.toNat_false]
      omega
    simp only [Pc.run]
    split
    · exact ⟨rfl, hthrown _⟩
    · split
      · exact ⟨rfl, hthrown _⟩
      · split
        · exact ⟨rfl, hthrown _⟩
        · refine ⟨rfl, ?_⟩
          split
          · simp only [Pc.potential, Pc.rest, Pc.contends, Pc.stale, Bool.toNat_false]
            omega
          · simp only [Pc.potential, Pc.rest, Pc.contends, Pc.stale, Bool.toNat_false]
            omega
  | _ =>
    refine .inl ⟨rfl, ?_⟩
    simp only [Pc.run, Pc.potential, Pc.rest, Pc.contends, Pc.stale, Bool.toNat_false]
    omega

variable {C : Type} [DecidableEq C] [Fintype C]

/-- The potential of all callers, with what they have put aside for `n` each. -/
def Sys.potential (n : Nat) (s : Sys C) : Nat := ∑ c, (s.callers c).pc.potential n s.pool

/-- A step of the pool is paid for. -/
theorem Sys.potential_go {n : Nat} (hn : Fintype.card C ≤ n) (s : Sys C) {c : C}
    (hc : (s.callers c).pc ≠ .idle) : (s.go c).potential n + 1 ≤ s.potential n := by
  have hself : ((s.go c).callers c).pc = ((s.callers c).pc.run s.pool).2 := by
    rw [Sys.go_self]
    rfl
  have hpool : (s.go c).pool = ((s.callers c).pc.run s.pool).1 := rfl
  rcases Pc.run_potential n s.pool hc with ⟨hsame, hle⟩ | hle
  · refine alone (b := 0) c ?_ fun d hd => ?_
    · rw [hself, hpool]
      exact hle
    · rw [Sys.go_callers hd, Pc.potential_congr n (hpool ▸ hsame)]
  · refine setback (b := 3) c ?_ fun d hd => ?_
    · rw [hself, hpool]
      have := Nat.mul_le_mul_left 3 hn
      omega
    · rw [Sys.go_callers hd]
      exact Pc.potential_le n _ _ _

/-- A call puts aside what it may need. -/
theorem Sys.potential_call {n : Nat} (s : Sys C) {c : C} {x : Caller} (hc : (s.callers c).pc = .idle) :
    (s.set c x).potential n ≤ s.potential n + x.pc.potential n s.pool := by
  refine alone (a := 0) c ?_ fun d hd => ?_
  · show (update s.callers c x c).pc.potential n s.pool + 0 ≤ _
    rw [update_self]
    omega
  · show (update s.callers c x d).pc.potential n s.pool ≤ _
    rw [update_of_ne hd]

theorem Sys.potential_alloc {n : Nat} (s : Sys C) {c : C} (hc : (s.callers c).pc = .idle) :
    (s.alloc c).potential n ≤ s.potential n + (3 * n + 6) := by
  have hle : (s.alloc c).potential n ≤ s.potential n + Pc.loadTop.potential n s.pool := s.potential_call hc
  simp only [Pc.potential, Pc.rest, Pc.contends, Pc.stale, Bool.toNat_false] at hle
  omega

theorem Sys.potential_free {n : Nat} (s : Sys C) {c : C} (hc : (s.callers c).pc = .idle) (p : Nat) :
    (s.free c p).potential n ≤ s.potential n + (3 * n + 7) := by
  have hle : (s.free c p).potential n ≤ s.potential n + (Pc.check p).potential n s.pool :=
    s.potential_call hc
  simp only [Pc.potential, Pc.rest, Pc.contends, Pc.stale, Bool.toNat_false] at hle
  omega

/-- Objects can be handed over for nothing. -/
theorem Sys.potential_hand {n : Nat} (s : Sys C) (c d : C) (p : Nat) :
    (s.hand c d p).potential n = s.potential n :=
  Finset.sum_congr rfl fun e _ => by rw [Sys.hand_pc]; rfl

/-- The calls among the events, and the steps. -/
def Act.calls : Act C → Nat
  | .alloc _ | .free _ _ => 1
  | _ => 0

def Act.steps : Act C → Nat
  | .go _ => 1
  | _ => 0

/-- **`LFObjectPool` is lock-free**: in every run, from its construction on, of any number of callers. -/
theorem lf_object_pool_lock_free {before : Pool} {nodeNum : Nat} {useCtor : Bool} {es : List (Act C)}
    {s : Sys C} (h : exec step es ⟨.new before nodeNum useCtor, fun _ => {}⟩ = some s) :
    (es.map Act.steps).sum ≤ (3 * Fintype.card C + 7) * (es.map Act.calls).sum := by
  have hbound := exec_bound (fun _ => True) (Sys.potential (Fintype.card C)) Act.calls Act.steps
    (3 * Fintype.card C + 7) (fun s e s' _ he => ?_) es trivial h
  · have hzero : Sys.potential (Fintype.card C)
        (⟨.new before nodeNum useCtor, fun _ => {}⟩ : Sys C) = 0 :=
      Finset.sum_eq_zero fun c _ => rfl
    omega
  · refine ⟨trivial, ?_⟩
    cases e with
    | alloc c =>
      simp only [step] at he
      split at he
      · obtain rfl := Option.some.inj he
        have hle := s.potential_alloc (n := Fintype.card C) ‹_›
        show 0 + (s.alloc c).potential _ ≤ _ + _ * 1
        omega
      · cases he
    | free c p =>
      simp only [step] at he
      split at he
      · split at he
        · obtain rfl := Option.some.inj he
          have hle := s.potential_free (n := Fintype.card C) ‹_› p
          show 0 + (s.free c p).potential _ ≤ _ + _ * 1
          omega
        · cases he
      · cases he
    | go c =>
      simp only [step] at he
      split at he
      · cases he
      · obtain rfl := Option.some.inj he
        have := s.potential_go (c := c) (Nat.le_refl (Fintype.card C)) ‹_›
        show 1 + (s.go c).potential _ ≤ _ + _ * 0
        omega
    | hand c d p =>
      simp only [step] at he
      split at he
      · obtain rfl := Option.some.inj he
        rw [s.potential_hand]
        exact Nat.le_of_eq (by simp [Act.steps, Act.calls])
      · cases he

/-- Two callers take the first node, and one of them has to go back; it creates one. -/
def twoAllocs : List (Act Bool) :=
  [.alloc true, .alloc false] ++ List.replicate 2 (.go true) ++ List.replicate 2 (.go false) ++
    List.replicate 3 (.go true) ++ List.replicate 6 (.go false)

theorem lf_object_pool_lock_free_two : (exec step twoAllocs ⟨.new blank 1 false, fun _ => {}⟩).isSome = true ∧
    (twoAllocs.map Act.steps).sum = 13 ∧ (twoAllocs.map Act.steps).sum ≤ (3 * 2 + 7) * 2 := by
  have hsome : (exec step twoAllocs ⟨.new blank 1 false, fun _ => {}⟩).isSome = true := by decide
  obtain ⟨s, hs⟩ := Option.isSome_iff_exists.mp hsome
  exact ⟨hsome, rfl, lf_object_pool_lock_free hs⟩

end JunCore.LFObjectPool

namespace JunCore.LFStack

open Transition Function LFQueueSteps LFObjectPool Contention

variable {T α : Type} [DecidableEq T] [Fintype T]

/-! ## `LFStack` -/

/-- The word it has read is not the same any more. -/
def Pc.stale (now : Stamped (Option Nat)) : Pc α → Bool
  | .storeNext _ _ _ top | .pushTop _ _ _ top | .loadNext _ top _ | .popTop _ top _ _ => !now.same top
  | _ => false

/-- The steps to the end of its call, if its CAS succeeds, and what `Free` may need; without those in
    `Alloc` and in `Free`. -/
def Pc.rest (n : Nat) : Pc α → Nat
  | .idle => 0
  | .countNode _ _ | .free _ _ | .empty _ => 1
  | .pushTop _ _ _ _ => 2
  | .storeNext _ _ _ _ => 3
  | .loadTop _ _ _ => 4
  | .storeData _ _ _ => 5
  | .set _ _ _ => 6
  | .alloc _ _ => 7
  | .loadData _ _ => 3 * n + 12
  | .discountNode _ _ => 3 * n + 13
  | .popTop _ _ _ _ => 3 * n + 14
  | .loadNext _ _ _ => 3 * n + 15
  | .reloadTop _ => 3 * n + 16

/-- Its CAS is still to come. -/
def Pc.contends : Pc α → Nat
  | .alloc _ _ | .set _ _ _ | .storeData _ _ _ | .loadTop _ _ _ | .storeNext _ _ _ _ | .pushTop _ _ _ _
  | .reloadTop _ | .loadNext _ _ _ | .popTop _ _ _ _ => 1
  | _ => 0

def Pc.potential (n : Nat) (now : Stamped (Option Nat)) (pc : Pc α) : Nat :=
  pc.rest n + 3 * n * pc.contends + 3 * (pc.stale now).toNat

/-- The pool has one caller more: the stack itself. -/
def Sys.potential (s : Sys T α) : Nat :=
  s.pool.potential (Fintype.card T + 1) + ∑ t, (s.threads t).potential (Fintype.card T) s.topStamp

theorem Pc.potential_le (n : Nat) (now now' : Stamped (Option Nat)) (pc : Pc α) :
    pc.potential n now' ≤ pc.potential n now + 3 := by
  unfold Pc.potential
  have := Bool.toNat_le (pc.stale now')
  omega

/-- A step that leaves the word of the stack as it is. -/
theorem Sys.potential_quiet {s s' : Sys T α} {t : T} {pc : Pc α} {a b : Nat}
    (hthreads : s'.threads = update s.threads t pc) (htop : s'.topStamp = s.topStamp)
    (h : s'.pool.potential (Fintype.card T + 1) + pc.potential (Fintype.card T) s.topStamp + a
      ≤ s.pool.potential (Fintype.card T + 1) + (s.threads t).potential (Fintype.card T) s.topStamp + b) :
    s'.potential + a ≤ s.potential + b := by
  unfold Sys.potential
  rw [hthreads, htop]
  have hsum := Counting.total_update (Pc.potential (Fintype.card T) s.topStamp) s.threads t pc
  unfold Counting.total at hsum
  omega

/-- A CAS that gets through. -/
theorem Sys.potential_win {s s' : Sys T α} {t : T} {pc : Pc α}
    (hthreads : s'.threads = update s.threads t pc)
    (hpool : s'.pool.potential (Fintype.card T + 1) = s.pool.potential (Fintype.card T + 1))
    (h : pc.potential (Fintype.card T) s'.topStamp + 3 * Fintype.card T + 1
      ≤ (s.threads t).potential (Fintype.card T) s.topStamp) : s'.potential + 1 ≤ s.potential := by
  have hsum : ∑ u, (s'.threads u).potential (Fintype.card T) s'.topStamp + 1
      ≤ ∑ u, (s.threads u).potential (Fintype.card T) s.topStamp := by
    refine setback (b := 3) t ?_ fun u hu => ?_
    · rw [hthreads, update_self]
      exact h
    · rw [hthreads, update_of_ne hu]
      exact Pc.potential_le _ _ _ _
  unfold Sys.potential
  omega

/-- **One operation** is paid for. -/
theorem Sys.potential_run {s s' : Sys T α} (S : Sound s) {t : T} (h : (s.threads t).run s t = some s') :
    s'.potential + 1 ≤ s.potential := by
  have C := S.calls t
  have hgo := s.pool.potential_go (n := Fintype.card T + 1) (c := some t) (by rw [Fintype.card_option])
  have hsame := (update_eq_self t s.threads).symm
  generalize hpc : s.threads t = pc at h C
  cases pc with
  | idle => cases h
  | alloc id data =>
    have hne : (s.pool.callers (some t)).pc ≠ .idle := by
      intro hq
      rw [Pc.Calls, hq] at C
      cases C
    have hgo := hgo hne
    simp only [Pc.run] at h
    split at h
    · obtain rfl := Option.some.inj h
      refine Sys.potential_quiet (t := t) (b := 0) rfl rfl ?_
      rw [hpc]
      simp only [Sys.goes, Pc.potential, Pc.rest, Pc.contends, Pc.stale]
      omega
    · obtain rfl := Option.some.inj h
      refine Sys.potential_quiet (t := t) (b := 0) hsame rfl ?_
      dsimp only
      omega
  | free id data =>
    have hne : (s.pool.callers (some t)).pc ≠ .idle := by
      intro hq
      rw [Pc.Calls, hq] at C
      cases C
    have hgo := hgo hne
    simp only [Pc.run] at h
    split at h
    · obtain rfl := Option.some.inj h
      refine Sys.potential_quiet (t := t) (b := 0) rfl rfl ?_
      rw [hpc]
      simp only [Sys.goes, Pc.potential, Pc.rest, Pc.contends, Pc.stale]
      omega
    · obtain rfl := Option.some.inj h
      refine Sys.potential_quiet (t := t) (b := 0) hsame rfl ?_
      dsimp only
      omega
  | loadData id p =>
    obtain rfl := Option.some.inj h
    have hfree := s.pool.potential_free (n := Fintype.card T + 1) (c := some t) C p
    refine Sys.potential_quiet (t := t) (b := 0) rfl rfl ?_
    rw [hpc]
    simp only [Sys.goes, Pc.potential, Pc.rest, Pc.contends, Pc.stale]
    omega
  | pushTop id data p top =>
    simp only [Pc.run] at h
    split at h
    · obtain rfl := Option.some.inj h
      refine Sys.potential_win (t := t) rfl (Sys.potential_hand _ _ _ _) ?_
      rw [hpc]
      simp only [Pc.potential, Pc.rest, Pc.contends, Pc.stale, Bool.toNat_false]
      omega
    · rename_i hold
      obtain rfl := Option.some.inj h
      refine Sys.potential_quiet (t := t) (b := 0) rfl rfl ?_
      rw [hpc]
      simp only [Sys.goes, Pc.potential, Pc.rest, Pc.contends, Pc.stale, Bool.eq_false_iff.mpr hold,
        Bool.not_false, Bool.toNat_true, Bool.toNat_false]
      omega
  | popTop id top p next =>
    simp only [Pc.run] at h
    split at h
    · obtain rfl := Option.some.inj h
      refine Sys.potential_win (t := t) rfl (Sys.potential_hand _ _ _ _) ?_
      rw [hpc]
      simp only [Pc.potential, Pc.rest, Pc.contends, Pc.stale, Bool.toNat_false]
      omega
    · rename_i hold
      obtain rfl := Option.some.inj h
      refine Sys.potential_quiet (t := t) (b := 0) rfl rfl ?_
      rw [hpc]
      simp only [Sys.goes, Pc.potential, Pc.rest, Pc.contends, Pc.stale, Bool.eq_false_iff.mpr hold,
        Bool.not_false, Bool.toNat_true, Bool.toNat_false]
      omega
  | reloadTop id =>
    simp only [Pc.run] at h
    split at h
    · obtain rfl := Option.some.inj h
      refine Sys.potential_quiet (t := t) (b := 0) rfl rfl ?_
      rw [hpc]
      simp only [Sys.goes, Pc.potential, Pc.rest, Pc.contends, Pc.stale, same_refl, Bool.not_true,
        Bool.toNat_false]
      omega
    · obtain rfl := Option.some.inj h
      refine Sys.potential_quiet (t := t) (b := 0) rfl rfl ?_
      rw [hpc]
      simp only [Sys.goes, Pc.potential, Pc.rest, Pc.contends, Pc.stale, Bool.toNat_false]
      omega
  | loadTop id data p =>
    obtain rfl := Option.some.inj h
    refine Sys.potential_quiet (t := t) (b := 0) rfl rfl ?_
    rw [hpc]
    simp only [Sys.goes, Pc.potential, Pc.rest, Pc.contends, Pc.stale, same_refl, Bool.not_true,
      Bool.toNat_false]
    omega
  | _ =>
    obtain rfl := Option.some.inj h
    refine Sys.potential_quiet (t := t) (b := 0) rfl rfl ?_
    rw [hpc]
    simp only [Sys.goes, Pc.potential, Pc.rest, Pc.contends, Pc.stale]
    omega

/-- The calls among the events, and the steps. -/
def Act.calls : T × Act α → Nat
  | (_, .push _) | (_, .pop) => 1
  | (_, .go) => 0

def Act.steps : T × Act α → Nat
  | (_, .go) => 1
  | _ => 0

/-- **`LFStack` is lock-free**: in every run, from its construction on, of any number of threads, in which no
    copy of a stamp gets too old; with the steps inside of its pool. -/
theorem lf_stack_lock_free {before : Pool} {next : Nat → Option Nat} {data : Nat → α}
    {es : List (T × Act α)} {s : Sys T α} (h : exec freshStep es (.new before next data) = some s) :
    (es.map Act.steps).sum ≤ (6 * Fintype.card T + 16) * (es.map Act.calls).sum := by
  have hbound := exec_bound (Reachable (fresh T α)) Sys.potential Act.calls Act.steps
    (6 * Fintype.card T + 16) (fun s e s' hr he => ?_) es (.start ⟨_, _, _, rfl⟩) h
  · have hzero : Sys.potential (.new before next data : Sys T α) = 0 := by
      have hthreads : ∑ t : T, (Pc.idle : Pc α).potential (Fintype.card T) ⟨0, none⟩ = 0 :=
        Finset.sum_eq_zero fun _ _ => rfl
      have hpool : LFObjectPool.Sys.potential (Fintype.card T + 1)
          (⟨.new before 0 true, fun _ => {}⟩ : LFObjectPool.Sys (Option T)) = 0 :=
        Finset.sum_eq_zero fun _ _ => rfl
      exact Nat.add_eq_zero_iff.mpr ⟨hpool, hthreads⟩
    omega
  · refine ⟨.step hr (fresh_next _ _ _ he), ?_⟩
    have S := sound hr
    rw [freshStep, gate, Option.filter_eq_some_iff] at he
    obtain ⟨he, -⟩ := he
    obtain ⟨t, a⟩ := e
    cases a with
    | push x =>
      simp only [step] at he
      split at he
      · rename_i hpc
        obtain rfl := Option.some.inj he
        have C := S.calls t
        rw [hpc] at C
        have halloc := s.pool.potential_alloc (n := Fintype.card T + 1) (c := some t) C
        rw [Nat.add_comm]
        refine Sys.potential_quiet (t := t) (a := 0) rfl rfl ?_
        rw [hpc]
        simp only [Sys.goes, Pc.potential, Pc.rest, Pc.contends, Pc.stale, Act.calls]
        omega
      · cases he
    | pop =>
      simp only [step] at he
      split at he
      · rename_i hpc
        obtain rfl := Option.some.inj he
        rw [Nat.add_comm]
        refine Sys.potential_quiet (t := t) (a := 0) rfl rfl ?_
        rw [hpc]
        simp only [Sys.goes, Pc.potential, Pc.rest, Pc.contends, Pc.stale, Act.calls]
        omega
      · cases he
    | go =>
      have := Sys.potential_run S he
      show 1 + s'.potential ≤ _ + _ * 0
      omega

/-- Two threads push at the same time: one of them has to link its node once more. -/
def twoPushes : List (Bool × Act Nat) :=
  [(true, .push 5), (false, .push 6)] ++ go true 9 ++ go false 9 ++ go true 2 ++ go false 5

theorem lf_stack_lock_free_two :
    (exec freshStep twoPushes (.new blank (fun _ => none) fun _ => 0)).isSome = true ∧
    (twoPushes.map Act.steps).sum = 25 ∧ (twoPushes.map Act.steps).sum ≤ (6 * 2 + 16) * 2 := by
  have hsome : (exec freshStep twoPushes (.new blank (fun _ => none) fun _ => 0)).isSome = true := by
    decide +kernel
  obtain ⟨s, hs⟩ := Option.isSome_iff_exists.mp hsome
  exact ⟨hsome, rfl, lf_stack_lock_free hs⟩

end JunCore.LFStack
