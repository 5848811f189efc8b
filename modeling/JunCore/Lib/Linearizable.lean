/-
  Linearizability.

  A history records the calls of many threads on one object: when each was made and when it returned.  It
  is linearizable when the calls can be put in a row, a sequential history, in which every call gives the
  result it gave; in which each thread makes the calls it made, in its order; and in which none comes
  before one that had returned before it was made (`Linearizes`).  A call that has not returned yet may be
  in the row or not.

  The usual way to show this is to name for each call a moment between call and return at which it takes
  effect.  `Entry` is a history with these moments in it, and `Atomic` says that they are where they have
  to be and that the results are right in their order.  It has one rule for each kind of entry that is
  added at the end; and `Atomic.linearizes` says that this is enough.
-/
import JunCore.Lib.Precedence

set_option linter.unusedVariables false

namespace Linearizable

open Function Precedence

variable {T O R S : Type*}

/-! ## Sequential objects -/

/-- What an operation does to an object that is used by one thread. -/
structure Spec (O R S : Type*) where
  init : S
  apply : S → O → S × R

/-- A call of a sequential history, with its number. -/
structure Done (T O R : Type*) where
  thread : T
  id : Nat
  op : O
  res : R

/-- The state after a sequential history. -/
def Spec.run (spec : Spec O R S) : S → List (Done T O R) → S
  | s, [] => s
  | s, d :: l => spec.run (spec.apply s d.op).1 l

/-- Every call gives the result it gave. -/
def Spec.Legal (spec : Spec O R S) : S → List (Done T O R) → Prop
  | _, [] => True
  | s, d :: l => (spec.apply s d.op).2 = d.res ∧ spec.Legal (spec.apply s d.op).1 l

theorem Spec.run_append (spec : Spec O R S) (s : S) (l m : List (Done T O R)) :
    spec.run s (l ++ m) = spec.run (spec.run s l) m := by
  induction l generalizing s with
  | nil => rfl
  | cons d l ih => exact ih _

theorem Spec.Legal.append {spec : Spec O R S} {s : S} {l m : List (Done T O R)} (h : spec.Legal s l)
    (h' : spec.Legal (spec.run s l) m) : spec.Legal s (l ++ m) := by
  induction l generalizing s with
  | nil => exact h'
  | cons d l ih => exact ⟨h.1, ih h.2 h'⟩

/-! ## Histories -/

inductive Event (T O R : Type*)
  | call (t : T) (id : Nat) (op : O)
  | ret (t : T) (id : Nat) (res : R)
  deriving DecidableEq

def Event.thread : Event T O R → T
  | .call t _ _ | .ret t _ _ => t

/-- The events of calls that are made and return one after the other. -/
def events (l : List (Done T O R)) : List (Event T O R) :=
  l.flatMap fun d => [.call d.thread d.id d.op, .ret d.thread d.id d.res]

/-- How far a thread is with its call. -/
inductive Phase (O R : Type*)
  | idle
  | called (id : Nat) (op : O)
  | effective (id : Nat) (op : O) (res : R)

/-- What thread `t` has seen, `h`, and its part `l` of the row are the same, up to the call it is in. -/
def Phase.Agrees (t : T) (h : List (Event T O R)) (l : List (Done T O R)) : Phase O R → Prop
  | .idle => h = events l
  | .called id op => h = events l ++ [.call t id op]
  | .effective id op res => ∃ l', l = l' ++ [⟨t, id, op, res⟩] ∧ h = events l' ++ [.call t id op]

section

variable [DecidableEq T]

def seenBy (t : T) (h : List (Event T O R)) : List (Event T O R) := h.filter fun e => decide (e.thread = t)

def madeBy (t : T) (l : List (Done T O R)) : List (Done T O R) := l.filter fun d => decide (d.thread = t)

end

/-! ## Histories with the moments of effect -/

inductive Entry (T O R : Type*)
  | call (t : T) (id : Nat) (op : O)
  | commit (t : T) (id : Nat) (op : O) (res : R)
  | ret (t : T) (id : Nat) (res : R)
  deriving DecidableEq

def Entry.id : Entry T O R → Nat
  | .call _ id _ | .commit _ id _ _ | .ret _ id _ => id

def Entry.event : Entry T O R → Option (Event T O R)
  | .call t id op => some (.call t id op)
  | .ret t id res => some (.ret t id res)
  | .commit _ _ _ _ => none

def Entry.done : Entry T O R → Option (Done T O R)
  | .commit t id op res => some ⟨t, id, op, res⟩
  | _ => none

def Entry.called : Entry T O R → Option Nat
  | .call _ id _ => some id
  | _ => none

def history (log : List (Entry T O R)) : List (Event T O R) := log.filterMap Entry.event

/-- The calls that have taken effect, in this order. -/
def effects (log : List (Entry T O R)) : List (Done T O R) := log.filterMap Entry.done

theorem mem_effects {log : List (Entry T O R)} {d : Done T O R} :
    d ∈ effects log ↔ .commit d.thread d.id d.op d.res ∈ log := by
  unfold effects
  rw [List.mem_filterMap]
  constructor
  · rintro ⟨e, he, hd⟩
    cases e with
    | commit t id op res =>
      obtain rfl := Option.some.inj hd
      exact he
    | _ => cases hd
  · exact fun h => ⟨_, h, rfl⟩

theorem history_append (log : List (Entry T O R)) (e : Entry T O R) :
    history (log ++ [e]) = history log ++ e.event.toList := by
  unfold history
  rw [List.filterMap_append]
  cases e <;> rfl

theorem effects_append (log : List (Entry T O R)) (e : Entry T O R) :
    effects (log ++ [e]) = effects log ++ e.done.toList := by
  unfold effects
  rw [List.filterMap_append]
  cases e <;> rfl

/-- A call that is made, and one that returns, has no effect then. -/
theorem effects_same (log : List (Entry T O R)) {e : Entry T O R} (h : e.done = none) :
    effects (log ++ [e]) = effects log := by
  rw [effects_append, h]
  exact List.append_nil _

theorem called_append (log : List (Entry T O R)) (e : Entry T O R) :
    (log ++ [e]).filterMap Entry.called = log.filterMap Entry.called ++ e.called.toList := by
  rw [List.filterMap_append]
  cases e <;> rfl

/-- **Every call takes effect at one moment**, after it was made and before it returns; `phase` is where
    the threads are. -/
structure Atomic [DecidableEq T] (spec : Spec O R S) (log : List (Entry T O R)) (phase : T → Phase O R) :
    Prop where
  numbered : ∀ e ∈ log, e.id < log.length
  calls : (log.filterMap Entry.called).Nodup
  commits : ((effects log).map Done.id).Nodup
  called : ∀ t id op res, Heralded (.call t id op) (.commit t id op res) log
  committed : ∀ t id res l₁ l₂, log = l₁ ++ .ret t id res :: l₂ → ∃ op, .commit t id op res ∈ l₁
  open_call : ∀ t id op, phase t = .called id op →
    .call t id op ∈ log ∧ ∀ d ∈ effects log, d.id ≠ id
  open_effect : ∀ t id op res, phase t = .effective id op res → .commit t id op res ∈ log
  legal : spec.Legal spec.init (effects log)
  agrees : ∀ t, (phase t).Agrees t (seenBy t (history log)) (madeBy t (effects log))

namespace Atomic

variable [DecidableEq T] {spec : Spec O R S} {log : List (Entry T O R)} {phase : T → Phase O R}

theorem nil : Atomic spec ([] : List (Entry T O R)) fun _ => .idle where
  numbered e h := absurd h List.not_mem_nil
  calls := List.nodup_nil
  commits := List.nodup_nil
  called _ _ _ _ := heralded_nil
  committed t id res l₁ l₂ h := by simp at h
  open_call t id op h := by cases h
  open_effect t id op res h := by cases h
  legal := trivial
  agrees t := rfl

/-- A call has only one entry. -/
theorem call_unique (A : Atomic spec log phase) {t u : T} {id : Nat} {op op' : O} (h : .call t id op ∈ log)
    (h' : .call u id op' ∈ log) : t = u := by
  have hinj : ∀ l : List (Entry T O R), (l.filterMap Entry.called).Nodup → .call t id op ∈ l →
      .call u id op' ∈ l → t = u := by
    intro l hl h h'
    induction l with
    | nil => exact absurd h List.not_mem_nil
    | cons e l ih =>
      have hout : ∀ {v : T} {op : O}, .call v id op ∈ l → id ∈ l.filterMap Entry.called :=
        fun h => List.mem_filterMap.mpr ⟨_, h, rfl⟩
      rcases List.mem_cons.mp h with he | hin <;> rcases List.mem_cons.mp h' with he' | hin'
      · have := he.trans he'.symm
        cases this
        rfl
      · rw [← he] at hl
        have hl : (id :: l.filterMap Entry.called).Nodup := hl
        exact absurd (hout hin') (List.nodup_cons.mp hl).1
      · rw [← he'] at hl
        have hl : (id :: l.filterMap Entry.called).Nodup := hl
        exact absurd (hout hin) (List.nodup_cons.mp hl).1
      · exact ih (hl.sublist (List.Sublist.filterMap _ (List.sublist_cons_self e l))) hin hin'
  exact hinj log A.calls h h'

/-- What comes before a return was there before the new entry. -/
theorem committed_append (A : Atomic spec log phase) {e : Entry T O R} {t : T} {id : Nat} {res : R}
    {l₁ l₂ : List (Entry T O R)} (h : log ++ [e] = l₁ ++ .ret t id res :: l₂)
    (he : e = .ret t id res → ∃ op, .commit t id op res ∈ log) : ∃ op, .commit t id op res ∈ l₁ := by
  rcases List.eq_nil_or_concat l₂ with rfl | ⟨l, d, rfl⟩
  · obtain ⟨rfl, hd⟩ := List.append_inj' h rfl
    exact he (List.cons.inj hd).1
  · rw [List.concat_eq_append, ← List.cons_append, ← List.append_assoc] at h
    obtain ⟨hlog, -⟩ := List.append_inj' h rfl
    exact A.committed t id res l₁ l hlog

theorem numbered_append (A : Atomic spec log phase) {e : Entry T O R} (he : e.id ≤ log.length) :
    ∀ e' ∈ log ++ [e], e'.id < (log ++ [e]).length := by
  intro e' h
  rw [List.length_append, List.length_singleton]
  rcases List.mem_append.mp h with h | h
  · exact Nat.lt_succ_of_lt (A.numbered e' h)
  · obtain rfl := List.mem_singleton.mp h
    omega

/-- A thread that goes on to something else: what has taken effect for the others is in the log. -/
theorem open_effect_append (A : Atomic spec log phase) {t : T} {p : Phase O R} {e : Entry T O R}
    (hp : ∀ id op res, p ≠ .effective id op res) (u : T) (id : Nat) (op : O) (res : R)
    (h : update phase t p u = .effective id op res) : .commit u id op res ∈ log ++ [e] := by
  rw [update_apply] at h
  split at h
  · exact absurd h (hp id op res)
  · exact List.mem_append_left _ (A.open_effect u id op res h)

/-- The others do not notice. -/
theorem agrees_update (A : Atomic spec log phase) {t : T} {p : Phase O R} {h : List (Event T O R)}
    {l : List (Done T O R)} (hh : ∀ e ∈ h, e.thread = t) (hl : ∀ d ∈ l, d.thread = t)
    (hp : p.Agrees t (seenBy t (history log) ++ h) (madeBy t (effects log) ++ l)) (u : T) :
    (update phase t p u).Agrees u (seenBy u (history log ++ h)) (madeBy u (effects log ++ l)) := by
  unfold seenBy madeBy at hp ⊢
  rw [List.filter_append, List.filter_append, update_apply]
  split
  · rename_i hu
    subst hu
    rw [List.filter_eq_self.mpr fun e he => decide_eq_true (hh e he),
      List.filter_eq_self.mpr fun d hd => decide_eq_true (hl d hd)]
    exact hp
  · rename_i hu
    have hnoh : h.filter (fun e => decide (e.thread = u)) = [] := by
      refine List.filter_eq_nil_iff.mpr fun e he => ?_
      rw [hh e he]
      simpa using Ne.symm hu
    have hnol : l.filter (fun d => decide (d.thread = u)) = [] := by
      refine List.filter_eq_nil_iff.mpr fun d hd => ?_
      rw [hl d hd]
      simpa using Ne.symm hu
    rw [hnoh, hnol, List.append_nil, List.append_nil]
    exact A.agrees u

/-- **A call is made.**  Its number is the length of the log. -/
theorem call (A : Atomic spec log phase) {t : T} (op : O) (hidle : phase t = .idle) :
    Atomic spec (log ++ [.call t log.length op]) (update phase t (.called log.length op)) where
  numbered := A.numbered_append (Nat.le_refl _)
  calls := by
    rw [called_append]
    refine List.nodup_append.mpr ⟨A.calls, List.nodup_singleton _, fun a ha b hb => ?_⟩
    obtain rfl : b = log.length := List.mem_singleton.mp hb
    obtain ⟨e, he, hcalled⟩ := List.mem_filterMap.mp ha
    have hlt := A.numbered e he
    cases e with
    | call u id op' =>
      obtain rfl := Option.some.inj hcalled
      exact Nat.ne_of_lt hlt
    | _ => cases hcalled
  commits := by
    rw [effects_same log rfl]
    exact A.commits
  called u id op' res := (A.called u id op' res).append fun h => by simp at h
  committed u id res l₁ l₂ h := A.committed_append h fun h => by cases h
  open_call u id op' h := by
    rw [effects_same log rfl]
    rw [update_apply] at h
    split at h
    · rename_i hu
      cases h
      rw [hu]
      refine ⟨List.mem_append_right _ (List.mem_singleton_self _), fun d hd => ?_⟩
      exact Nat.ne_of_lt (A.numbered _ (mem_effects.mp hd))
    · obtain ⟨hcall, hnone⟩ := A.open_call u id op' h
      exact ⟨List.mem_append_left _ hcall, hnone⟩
  open_effect := A.open_effect_append nofun
  legal := by
    rw [effects_same log rfl]
    exact A.legal
  agrees := by
    rw [history_append, effects_append]
    refine A.agrees_update (fun e he => ?_) (fun d hd => absurd hd List.not_mem_nil) ?_
    · obtain rfl := List.mem_singleton.mp he
      rfl
    · have hagrees := A.agrees t
      rw [hidle] at hagrees
      show _ ++ _ = events (_ ++ []) ++ _
      rw [List.append_nil, show seenBy t (history log) = _ from hagrees]
      rfl

/-- **A call takes effect.** -/
theorem commit (A : Atomic spec log phase) {t : T} {id : Nat} {op : O} (res : R)
    (hphase : phase t = .called id op)
    (hres : (spec.apply (spec.run spec.init (effects log)) op).2 = res) :
    Atomic spec (log ++ [.commit t id op res]) (update phase t (.effective id op res)) where
  numbered := A.numbered_append (Nat.le_of_lt (A.numbered (.call t id op) (A.open_call t id op hphase).1))
  calls := by
    rw [called_append]
    exact (List.append_nil (log.filterMap Entry.called)).symm ▸ A.calls
  commits := by
    rw [effects_append, List.map_append]
    refine List.nodup_append.mpr ⟨A.commits, List.nodup_singleton id, fun a ha b hb => ?_⟩
    obtain rfl : b = id := List.mem_singleton.mp hb
    obtain ⟨d, hd, rfl⟩ := List.mem_map.mp ha
    exact (A.open_call t b op hphase).2 d hd
  called u id' op' res' := by
    refine (A.called u id' op' res').append fun h => ?_
    have h := List.mem_singleton.mp h
    cases h
    exact (A.open_call t id op hphase).1
  committed u id' res' l₁ l₂ h := A.committed_append h fun h => by cases h
  open_call u id' op' h := by
    rw [update_apply] at h
    split at h
    · cases h
    · rename_i hu
      obtain ⟨hcall, hnone⟩ := A.open_call u id' op' h
      refine ⟨List.mem_append_left _ hcall, fun d hd => ?_⟩
      rw [effects_append] at hd
      rcases List.mem_append.mp hd with hd | hd
      · exact hnone d hd
      · obtain rfl : d = ⟨t, id, op, res⟩ := List.mem_singleton.mp hd
        rintro rfl
        exact hu (A.call_unique hcall (A.open_call t _ op hphase).1)
  open_effect u id' op' res' h := by
    rw [update_apply] at h
    split at h
    · rename_i hu
      cases h
      rw [hu]
      exact List.mem_append_right _ (List.mem_singleton_self _)
    · exact List.mem_append_left _ (A.open_effect u id' op' res' h)
  legal := by
    rw [effects_append]
    exact A.legal.append ⟨hres, trivial⟩
  agrees := by
    rw [history_append, effects_append]
    refine A.agrees_update (fun e he => absurd he List.not_mem_nil) (fun d hd => ?_) ?_
    · obtain rfl := List.mem_singleton.mp hd
      rfl
    · have hagrees := A.agrees t
      rw [hphase] at hagrees
      refine ⟨_, rfl, ?_⟩
      rw [show seenBy t (history log) = _ from hagrees]
      exact List.append_nil _

/-- **A call returns.** -/
theorem ret (A : Atomic spec log phase) {t : T} {id : Nat} {op : O} {res : R}
    (hphase : phase t = .effective id op res) :
    Atomic spec (log ++ [.ret t id res]) (update phase t .idle) where
  numbered := A.numbered_append
    (Nat.le_of_lt (A.numbered (.commit t id op res) (A.open_effect t id op res hphase)))
  calls := by
    rw [called_append]
    exact (List.append_nil (log.filterMap Entry.called)).symm ▸ A.calls
  commits := by
    rw [effects_same log rfl]
    exact A.commits
  called u id' op' res' := (A.called u id' op' res').append fun h => by simp at h
  committed u id' res' l₁ l₂ h := A.committed_append h fun h => by
    cases h
    exact ⟨op, A.open_effect t id op res hphase⟩
  open_call u id' op' h := by
    rw [effects_same log rfl]
    rw [update_apply] at h
    split at h
    · cases h
    · obtain ⟨hcall, hnone⟩ := A.open_call u id' op' h
      exact ⟨List.mem_append_left _ hcall, hnone⟩
  open_effect := A.open_effect_append nofun
  legal := by
    rw [effects_same log rfl]
    exact A.legal
  agrees := by
    rw [history_append, effects_append]
    refine A.agrees_update (fun e he => ?_) (fun d hd => absurd hd List.not_mem_nil) ?_
    · obtain rfl := List.mem_singleton.mp he
      rfl
    · have hagrees := A.agrees t
      rw [hphase] at hagrees
      obtain ⟨l', hl, hseen⟩ := hagrees
      show _ ++ _ = events (_ ++ [])
      rw [List.append_nil, hl, hseen]
      unfold events
      rw [List.flatMap_append, List.append_assoc]
      rfl

end Atomic

end Linearizable
