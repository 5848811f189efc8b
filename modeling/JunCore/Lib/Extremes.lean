/-
  Two places for the extremes of a sequence.

  `beats x t` says that `t` takes the place of `x`; `m` marks a place that is free.  A value that is offered
  takes the first place it can get, and otherwise it is passed on; the value whose place it takes is lost.
  So what was offered is, up to order, what is held, what was passed on and what was lost (`keep_perm`), and
  nothing is lost exactly when the first two values lead all that come after them (`lost_eq_nil_iff`).

  What one pair passes on may be offered to the next one.
-/
import Mathlib.Data.List.Perm.Basic

set_option linter.unusedSectionVars false

namespace Extremes

variable {α : Type*} [DecidableEq α] (beats : α → α → Prop) [DecidableRel beats] (m : α)

/-! ## The places -/

/-- The first place that `t` can get. -/
def offer (h : α × α) (t : α) : Option (α × α) :=
  if beats h.1 t then some (t, h.2) else if beats h.2 t then some (h.1, t) else none

/-- A value, unless it is the mark. -/
def real (x : α) : List α := if x = m then [] else [x]

/-- What is held. -/
def held (h : α × α) : List α := real m h.1 ++ real m h.2

/-- The value whose place `t` takes. -/
def displaced (h : α × α) (t : α) : List α := if beats h.1 t then real m h.1 else real m h.2

/-- The places after all of `ts` has been offered. -/
def keep (h : α × α) : List α → α × α
  | [] => h
  | t :: ts => match offer beats h t with
    | some h' => keep h' ts
    | none => keep h ts

def passed (h : α × α) : List α → List α
  | [] => []
  | t :: ts => match offer beats h t with
    | some h' => passed h' ts
    | none => t :: passed h ts

def lost (h : α × α) : List α → List α
  | [] => []
  | t :: ts => match offer beats h t with
    | some h' => displaced beats m h t ++ lost h' ts
    | none => lost h ts

/-- The first two values lead: nothing that comes after one of them beats it. -/
def Leads : List α → Prop
  | x :: y :: ts => ¬ beats x y ∧ ∀ t ∈ ts, ¬ beats x t ∧ ¬ beats y t
  | _ => True

/-- Every value that is not the mark takes a free place, and the mark takes none. -/
structure IsMark : Prop where
  free : ∀ t, beats m t ↔ t ≠ m
  last : ∀ x, ¬ beats x m

/-- Without the first two values that are no marks. -/
def withoutLeaders (ts : List α) : List α := (ts.eraseP (· ≠ m)).eraseP (· ≠ m)

instance : DecidablePred (Leads beats)
  | [] => .isTrue trivial
  | [_] => .isTrue trivial
  | _ :: _ :: _ => inferInstanceAs (Decidable (_ ∧ _))

variable {beats m}

theorem offer_cases {h h' : α × α} {t : α} (hoffer : offer beats h t = some h') :
    beats h.1 t ∧ h' = (t, h.2) ∨ ¬ beats h.1 t ∧ beats h.2 t ∧ h' = (h.1, t) := by
  unfold offer at hoffer
  split at hoffer
  · exact .inl ⟨‹_›, (Option.some.inj hoffer).symm⟩
  · split at hoffer
    · exact .inr ⟨‹_›, ‹_›, (Option.some.inj hoffer).symm⟩
    · cases hoffer

theorem offer_eq_none {h : α × α} {t : α} : offer beats h t = none ↔ ¬ beats h.1 t ∧ ¬ beats h.2 t := by
  unfold offer
  split
  · simp [*]
  · split <;> simp [*]

theorem real_of_ne {x : α} (h : x ≠ m) : real m x = [x] := if_neg h

@[simp] theorem real_mark : real m m = [] := if_pos rfl

theorem length_real_le (x : α) : (real m x).length ≤ 1 := by
  unfold real
  split <;> simp

theorem length_held_le (h : α × α) : (held m h).length ≤ 2 := by
  have h1 := length_real_le (m := m) h.1
  have h2 := length_real_le (m := m) h.2
  rw [held, List.length_append]
  omega

@[simp] theorem held_free : held m (m, m) = [] := by simp [held]

/-! ## Nothing gets away -/

/-- One value that takes a place. -/
theorem held_offer (M : IsMark beats m) {h h' : α × α} {t : α} (hoffer : offer beats h t = some h') :
    (held m h ++ [t]).Perm (held m h' ++ displaced beats m h t) := by
  have hne : t ≠ m := by
    rintro rfl
    rcases offer_cases hoffer with ⟨hb, -⟩ | ⟨-, hb, -⟩ <;> exact M.last _ hb
  rw [List.perm_iff_count]
  intro x
  rcases offer_cases hoffer with ⟨hb, rfl⟩ | ⟨hnb, hb, rfl⟩
  · simp only [held, displaced, if_pos hb, real_of_ne hne, List.count_append]
    omega
  · simp only [held, displaced, if_neg hnb, real_of_ne hne, List.count_append]
    omega

/-- **Conservation**: every value is held, has been passed on or is lost. -/
theorem keep_perm (M : IsMark beats m) (h : α × α) (ts : List α) :
    (held m h ++ ts).Perm (held m (keep beats h ts) ++ (passed beats h ts ++ lost beats m h ts)) := by
  induction ts generalizing h with
  | nil => simp [keep, passed, lost]
  | cons t ts ih =>
    cases hoffer : offer beats h t with
    | some h' =>
      have hone := held_offer M hoffer
      have hrest := ih h'
      rw [List.perm_iff_count] at hone hrest ⊢
      intro x
      have h1 := hone x
      have h2 := hrest x
      simp only [keep, passed, lost, hoffer, List.count_append, List.count_cons, List.count_nil] at h1 h2 ⊢
      omega
    | none =>
      have hrest := ih h
      rw [List.perm_iff_count] at hrest ⊢
      intro x
      have h2 := hrest x
      simp only [keep, passed, lost, hoffer, List.count_append, List.count_cons] at h2 ⊢
      omega

/-- What is offered later goes on from there. -/
theorem keep_append (beats : α → α → Prop) [DecidableRel beats] (h : α × α) (xs ys : List α) :
    keep beats h (xs ++ ys) = keep beats (keep beats h xs) ys := by
  induction xs generalizing h with
  | nil => rfl
  | cons x xs ih => cases hoffer : offer beats h x <;> simp only [List.cons_append, keep, hoffer, ih]

theorem passed_append (beats : α → α → Prop) [DecidableRel beats] (h : α × α) (xs ys : List α) :
    passed beats h (xs ++ ys) = passed beats h xs ++ passed beats (keep beats h xs) ys := by
  induction xs generalizing h with
  | nil => rfl
  | cons x xs ih =>
    cases hoffer : offer beats h x <;> simp only [List.cons_append, keep, passed, hoffer, ih]

/-! ## When nothing is lost -/

theorem lost_full {x y : α} (hx : x ≠ m) (hy : y ≠ m) (ts : List α) :
    lost beats m (x, y) ts = [] ↔ ∀ t ∈ ts, ¬ beats x t ∧ ¬ beats y t := by
  induction ts with
  | nil => simp [lost]
  | cons t ts ih =>
    rw [List.forall_mem_cons]
    cases hoffer : offer beats (x, y) t with
    | some h' =>
      have hsome : displaced beats m (x, y) t ≠ [] := by
        unfold displaced
        split <;> simp [real_of_ne, hx, hy]
      have hbeats : ¬ (¬ beats x t ∧ ¬ beats y t) := fun hn => by
        rw [offer_eq_none.mpr hn] at hoffer
        cases hoffer
      simp only [lost, hoffer, List.append_eq_nil_iff]
      exact ⟨fun hl => absurd hl.1 hsome, fun hl => absurd hl.1 hbeats⟩
    | none =>
      simp only [lost, hoffer, ih]
      exact ⟨fun hl => ⟨offer_eq_none.mp hoffer, hl⟩, fun hl => hl.2⟩

theorem passed_full {x y : α} {ts : List α} (h : ∀ t ∈ ts, ¬ beats x t ∧ ¬ beats y t) :
    passed beats (x, y) ts = ts := by
  induction ts with
  | nil => rfl
  | cons t ts ih =>
    rw [List.forall_mem_cons] at h
    have hnone : offer beats (x, y) t = none := offer_eq_none.mpr h.1
    simp only [passed, hnone, ih h.2]

theorem filter_mark (ts : List α) : (m :: ts).filter (· ≠ m) = ts.filter (· ≠ m) := by simp

theorem filter_real {t : α} (ht : t ≠ m) (ts : List α) :
    (t :: ts).filter (· ≠ m) = t :: ts.filter (· ≠ m) := by simp [ht]

theorem mem_of_filter {P : α → Prop} {ts : List α} (hm : P m) (h : ∀ t ∈ ts.filter (· ≠ m), P t) :
    ∀ t ∈ ts, P t := by
  intro t ht
  by_cases htm : t = m
  · rw [htm]
    exact hm
  · exact h t (List.mem_filter.mpr ⟨ht, by simpa using htm⟩)

section

variable (M : IsMark beats m)
include M

theorem offer_mark (h : α × α) : offer beats h m = none := offer_eq_none.mpr ⟨M.last _, M.last _⟩

theorem offer_free {t : α} (ht : t ≠ m) : offer beats (m, m) t = some (t, m) := if_pos ((M.free t).mpr ht)

theorem offer_half {x t : α} (hb : ¬ beats x t) (ht : t ≠ m) : offer beats (x, m) t = some (x, t) := by
  rw [offer, if_neg hb, if_pos ((M.free t).mpr ht)]

/-- With one place taken: the next value that is no mark leads, too. -/
theorem lost_half {x : α} (hx : x ≠ m) (ts : List α) :
    lost beats m (x, m) ts = [] ↔ Leads beats (x :: ts.filter (· ≠ m)) := by
  induction ts with
  | nil => simp [lost, Leads]
  | cons t ts ih =>
    by_cases ht : t = m
    · subst ht
      simp only [lost, offer_mark M, ih, filter_mark]
    · rw [filter_real ht, Leads]
      by_cases hb : beats x t
      · have hoffer : offer beats (x, m) t = some (t, m) := if_pos hb
        have hsome : displaced beats m (x, m) t = [x] := by rw [displaced, if_pos hb, real_of_ne hx]
        simp [lost, hoffer, hsome, hb]
      · have hnothing : displaced beats m (x, m) t = [] := by rw [displaced, if_neg hb, real_mark]
        simp only [lost, offer_half M hb ht, hnothing, List.nil_append, lost_full hx ht]
        refine ⟨fun hl => ⟨hb, fun u hu => hl u (List.mem_of_mem_filter hu)⟩, fun hl => ?_⟩
        exact mem_of_filter ⟨M.last x, M.last t⟩ hl.2

/-- **Nothing is lost** exactly when the leaders lead. -/
theorem lost_eq_nil_iff (ts : List α) :
    lost beats m (m, m) ts = [] ↔ Leads beats (ts.filter (· ≠ m)) := by
  induction ts with
  | nil => simp [lost, Leads]
  | cons t ts ih =>
    by_cases ht : t = m
    · subst ht
      simp only [lost, offer_mark M, ih, filter_mark]
    · have hnothing : displaced beats m (m, m) t = [] := by
        unfold displaced
        split <;> exact real_mark
      simp only [lost, offer_free M ht, hnothing, List.nil_append]
      rw [filter_real ht]
      exact lost_half M ht ts

theorem passed_half {x : α} {ts : List α} (h : Leads beats (x :: ts.filter (· ≠ m))) :
    passed beats (x, m) ts = ts.eraseP (· ≠ m) := by
  induction ts with
  | nil => rfl
  | cons t ts ih =>
    by_cases ht : t = m
    · subst ht
      rw [filter_mark] at h
      simp [passed, offer_mark M, ih h]
    · rw [filter_real ht, Leads] at h
      simp only [passed, offer_half M h.1 ht]
      rw [passed_full (mem_of_filter ⟨M.last x, M.last t⟩ h.2)]
      simp [ht]

/-- What is then passed on. -/
theorem passed_of_leads {ts : List α} (h : Leads beats (ts.filter (· ≠ m))) :
    passed beats (m, m) ts = withoutLeaders m ts := by
  induction ts with
  | nil => rfl
  | cons t ts ih =>
    by_cases ht : t = m
    · subst ht
      rw [filter_mark] at h
      simp [passed, offer_mark M, ih h, withoutLeaders]
    · rw [filter_real ht] at h
      simp only [passed, offer_free M ht, passed_half M h]
      simp [withoutLeaders, ht]

end

end Extremes
