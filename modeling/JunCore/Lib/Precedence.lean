/-
  What comes before what in a list.

  `Before a b l` says that `l` has an `a` and, further on, a `b`; `Heralded a b l`, that no `b` comes
  without an `a` before it.  A log is such a list, and it grows at its end, so the rules say what
  happens there (`before_snoc`, `Heralded.append`), what a part of the log keeps
  (`Before.of_filterMap`), and that in a list without repetitions whatever comes before an entry of
  the front is in the front as well (`Before.front`).

  `Separated a b l` says that between a `b` and the next there is an `a`.  A log with an `a` that is still
  `Pending`, with no `b` behind it, may get one more `b` (`Separated.snoc`).

  `Justified` is about all entries at once: each of them is right, in view of those before it.
-/
import Mathlib.Data.List.Nodup

set_option linter.unusedVariables false

namespace Precedence

variable {A B : Type*} {a b c : A} {l m : List A}

/-- There is an `a`, and a `b` after it. -/
def Before (a b : A) (l : List A) : Prop := [a, b].Sublist l

instance [DecidableEq A] : Decidable (Before a b l) :=
  inferInstanceAs (Decidable ([a, b].Sublist l))

theorem Before.left (h : Before a b l) : a ∈ l := h.subset List.mem_cons_self

theorem Before.right (h : Before a b l) : b ∈ l :=
  h.subset (List.mem_cons_of_mem _ List.mem_cons_self)

theorem Before.append (h : Before a b l) (m : List A) : Before a b (l ++ m) :=
  h.trans (List.sublist_append_left l m)

theorem Before.filterMap {f : A → Option B} {x y : B} (h : Before a b l) (hx : f a = some x)
    (hy : f b = some y) : Before x y (l.filterMap f) := by
  have hsub := List.Sublist.filterMap f h
  rw [List.filterMap_cons_some hx, List.filterMap_cons_some hy, List.filterMap_nil] at hsub
  exact hsub

/-- A new entry comes after all the others. -/
theorem before_snoc : Before a b (l ++ [c]) ↔ Before a b l ∨ b = c ∧ a ∈ l := by
  constructor
  · intro h
    obtain ⟨l₁, l₂, heq, h₁, h₂⟩ := List.sublist_append_iff.mp h
    rcases List.sublist_singleton.mp h₂ with rfl | rfl
    · left
      rw [List.append_nil] at heq
      unfold Before
      rw [heq]
      exact h₁
    · right
      obtain ⟨rfl, hb⟩ := List.append_inj' (show [a] ++ [b] = l₁ ++ [c] from heq) rfl
      exact ⟨(List.cons.inj hb).1, List.singleton_sublist.mp h₁⟩
  · rintro (h | ⟨rfl, ha⟩)
    · exact h.append [c]
    · exact (List.singleton_sublist.mpr ha).append (List.Sublist.refl [b])

/-- What is cut off the end of a pair has its second half. -/
theorem mem_of_pair {d : A} (h : [a, b] = l ++ d :: m) : b ∈ d :: m := by
  have hlast := congrArg List.getLast? h
  rw [List.getLast?_append] at hlast
  have hsome : (d :: m).getLast? = some b := by
    cases hl : (d :: m).getLast? with
    | none => simp at hl
    | some e =>
      rw [hl] at hlast
      simpa using hlast.symm
  exact List.mem_of_getLast? hsome

/-- An entry that is not among the new ones was there before. -/
theorem Before.of_append (h : Before a b (l ++ m)) (hb : b ∉ m) : Before a b l := by
  obtain ⟨l₁, l₂, heq, h₁, h₂⟩ := List.sublist_append_iff.mp h
  cases l₂ with
  | nil =>
    rw [List.append_nil] at heq
    unfold Before
    rw [heq]
    exact h₁
  | cons d l₂ => exact absurd (h₂.subset (mem_of_pair heq)) hb

/-- Every `b` has an `a` before it. -/
def Heralded (a b : A) (l : List A) : Prop := ∀ l₁ l₂, l = l₁ ++ b :: l₂ → a ∈ l₁

theorem heralded_nil : Heralded a b [] := by
  intro l₁ l₂ h
  simp at h

/-- What is new is heralded by what was there. -/
theorem Heralded.append (h : Heralded a b l) (hnew : b ∈ m → a ∈ l) : Heralded a b (l ++ m) := by
  intro l₁ l₂ heq
  rcases List.append_eq_append_iff.mp heq with ⟨k, rfl, hm⟩ | ⟨k, rfl, hm⟩
  · exact List.mem_append_left k (hnew (hm ▸ List.mem_append_right k List.mem_cons_self))
  · cases k with
    | nil =>
      have hb : b ∈ m := by
        rw [List.nil_append] at hm
        rw [← hm]
        exact List.mem_cons_self
      rw [List.append_nil] at hnew
      exact hnew hb
    | cons c k =>
      obtain ⟨rfl, -⟩ := List.cons.inj hm
      exact h l₁ k rfl

/-- Without repetitions, what comes before an entry of the front is in the front. -/
theorem Before.front (h : Before a b (l ++ m)) (hnodup : (l ++ m).Nodup) (hb : b ∈ l) :
    Before a b l := by
  refine h.of_append fun hm => ?_
  exact absurd rfl ((List.nodup_append.mp hnodup).2.2 b hb b hm)

/-- The order of what is picked out of a list is the order in the list. -/
theorem Before.of_filterMap {f : A → Option B} {x y : B} (h : Before x y (l.filterMap f)) :
    ∃ a b, Before a b l ∧ f a = some x ∧ f b = some y := by
  induction l with
  | nil => exact absurd h.left List.not_mem_nil
  | cons d l ih =>
    cases hd : f d with
    | none =>
      rw [List.filterMap_cons_none hd] at h
      obtain ⟨a, b, hab, ha, hb⟩ := ih h
      exact ⟨a, b, hab.cons d, ha, hb⟩
    | some z =>
      rw [List.filterMap_cons_some hd] at h
      rcases List.sublist_cons_iff.mp h with hrest | ⟨r, hr, hsub⟩
      · obtain ⟨a, b, hab, ha, hb⟩ := ih hrest
        exact ⟨a, b, hab.cons d, ha, hb⟩
      · obtain ⟨rfl, rfl⟩ := List.cons.inj hr
        obtain ⟨b, hb, hfb⟩ := List.mem_filterMap.mp (List.singleton_sublist.mp hsub)
        exact ⟨d, b, (List.singleton_sublist.mpr hb).cons_cons d, hd, hfb⟩

/-! ## Entries between entries -/

/-- Between a `b` and the next one there is an `a`. -/
def Separated (a b : A) (l : List A) : Prop := ∀ l₁ l₂ l₃, l = l₁ ++ b :: (l₂ ++ b :: l₃) → a ∈ l₂

/-- There is an `a` with no `b` behind it. -/
def Pending (a b : A) (l : List A) : Prop := ∃ l₁ l₂, l = l₁ ++ a :: l₂ ∧ b ∉ l₂

theorem Pending.append (h : Pending a b l) (hm : b ∉ m) : Pending a b (l ++ m) := by
  obtain ⟨l₁, l₂, rfl, hb⟩ := h
  refine ⟨l₁, l₂ ++ m, by rw [List.append_assoc, List.cons_append], ?_⟩
  rw [List.mem_append]
  exact fun hmem => hmem.elim hb hm

theorem Pending.mem (h : Pending a b l) : a ∈ l := by
  obtain ⟨l₁, l₂, rfl, -⟩ := h
  exact List.mem_append_right l₁ List.mem_cons_self

theorem separated_nil : Separated a b [] := by
  intro l₁ l₂ l₃ h
  simp at h

/-- The new entry is the `b`, or it is the last one behind it. -/
theorem snoc_cases {l₁ l₃ : List A} (h : l ++ [c] = l₁ ++ b :: l₃) :
    (l₃ = [] ∧ l = l₁ ∧ c = b) ∨ ∃ k, l₃ = k ++ [c] ∧ l = l₁ ++ b :: k := by
  rcases List.eq_nil_or_concat l₃ with rfl | ⟨k, d, rfl⟩
  · obtain ⟨rfl, hc⟩ := List.append_inj' h rfl
    exact Or.inl ⟨rfl, rfl, List.singleton_inj.mp hc⟩
  · rw [List.concat_eq_append] at h ⊢
    rw [← List.cons_append, ← List.append_assoc] at h
    obtain ⟨rfl, hc⟩ := List.append_inj' h rfl
    exact Or.inr ⟨k, by rw [List.singleton_inj.mp hc], rfl⟩

/-- Another entry is no `b`. -/
theorem Separated.snoc_other (h : Separated a b l) (hc : c ≠ b) : Separated a b (l ++ [c]) := by
  intro l₁ l₂ l₃ heq
  rw [← List.cons_append, ← List.append_assoc] at heq
  rcases snoc_cases heq with ⟨-, -, rfl⟩ | ⟨k, rfl, hl⟩
  · exact absurd rfl hc
  · exact h l₁ l₂ k (by rw [hl, List.append_assoc, List.cons_append])

/-- Behind a `b`, the pending `a` is further on. -/
theorem Pending.behind {l₁ l₂ : List A} (hp : Pending a b (l₁ ++ b :: l₂)) (hne : a ≠ b) : a ∈ l₂ := by
  obtain ⟨m₁, m₂, heq, hb⟩ := hp
  rcases List.append_eq_append_iff.mp heq with ⟨k, -, hk⟩ | ⟨k, -, hk⟩
  · cases k with
    | nil => exact absurd (List.cons.inj hk).1.symm hne
    | cons d k =>
      rw [(List.cons.inj hk).2]
      exact List.mem_append_right k List.mem_cons_self
  · cases k with
    | nil => exact absurd (List.cons.inj hk).1 hne
    | cons d k =>
      refine absurd ?_ hb
      rw [(List.cons.inj hk).2]
      exact List.mem_append_right k List.mem_cons_self

/-- A new `b` is separated from the others by the `a` it belongs to. -/
theorem Separated.snoc (h : Separated a b l) (hp : Pending a b l) (hne : a ≠ b) :
    Separated a b (l ++ [b]) := by
  intro l₁ l₂ l₃ heq
  rw [← List.cons_append, ← List.append_assoc] at heq
  rcases snoc_cases heq with ⟨rfl, rfl, -⟩ | ⟨k, rfl, hl⟩
  · exact hp.behind hne
  · exact h l₁ l₂ k (by rw [hl, List.append_assoc, List.cons_append])

/-! ## Entries that are right in view of those before -/

/-- Every entry is right, given the entries before it. -/
def Justified (Right : List A → A → Prop) (l : List A) : Prop := ∀ m a, m ++ [a] <+: l → Right m a

theorem justified_nil {Right : List A → A → Prop} : Justified Right [] := by
  intro m a h
  simp at h

theorem Justified.snoc {Right : List A → A → Prop} (h : Justified Right l) (ha : Right l a) :
    Justified Right (l ++ [a]) := by
  intro m b hm
  rcases List.prefix_concat_iff.mp hm with heq | hpre
  · obtain ⟨rfl, hb⟩ := List.append_inj' heq rfl
    obtain rfl := List.singleton_inj.mp hb
    exact ha
  · exact h m b hpre

end Precedence
