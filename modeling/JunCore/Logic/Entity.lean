/-
  `JunCore/logic/Entity.h`: the components of an entity and the index over them.

  `m_components` owns the components, and `m_componentMap` finds one by its type.  `AddComponent` writes to
  both, and so does `RemoveComponent`.  But to add a component of a type that is present overwrites the
  entry of the map only: the old component stays in the vector, is updated with the others, and can never
  be found or removed again (`added_twice`).

  A pointer is an address, and `new` may return any address at which no component lives.  The hooks do
  nothing to the entity.
-/
import JunCore.Lib.Transition
import Mathlib.Data.List.Nodup
import Mathlib.Data.List.Perm.Basic

set_option linter.unusedVariables false

namespace JunCore.Logic

open Transition Function

variable {T : Type}

/-! ## The entity -/

/-- A component, of the type it was made with. -/
structure Component (T : Type) where
  type : T
  address : Nat
  deriving DecidableEq

structure Entity (T : Type) where
  components : List (Component T) := []
  componentMap : T → Option (Component T) := fun _ => none

namespace Entity

def getComponent (e : Entity T) (t : T) : Option (Component T) := e.componentMap t

def hasComponent (e : Entity T) (t : T) : Bool := (e.componentMap t).isSome

/-- The components whose `OnUpdate` is called. -/
def updateComponents (e : Entity T) : List (Component T) := e.components

/-- The components whose `OnFixedUpdate` is called. -/
def fixedUpdateComponents (e : Entity T) : List (Component T) := e.components

variable [DecidableEq T]

/-- `AddComponent<T>`; `make_unique` has returned this address. -/
def addComponent (e : Entity T) (t : T) (address : Nat) : Component T × Entity T :=
  (⟨t, address⟩,
    { componentMap := update e.componentMap t (some ⟨t, address⟩)
      components := e.components ++ [⟨t, address⟩] })

/-- `RemoveComponent<T>` -/
def removeComponent (e : Entity T) (t : T) : Bool × Entity T :=
  match e.componentMap t with
  | none => (false, e)
  | some target => (true,
    { components := e.components.eraseP fun c => c.address == target.address
      componentMap := update e.componentMap t none })

/-- A call, with the address of the new component. -/
inductive Op (T : Type)
  | add (t : T) (address : Nat)
  | remove (t : T)

/-- A call of `AddComponent` needs an address at which no component lives. -/
def step (e : Entity T) : Op T → Option (Entity T)
  | .add t address => if ∀ c ∈ e.components, c.address ≠ address then some (e.addComponent t address).2 else none
  | .remove t => some (e.removeComponent t).2

end Entity

/-! ## What is to hold -/

variable [DecidableEq T]

/-- **Vector and map are in step**: every component is the entry of its type, and every entry is a
    component of its type; so a type that has been removed is gone, and what is updated is what can be
    found. -/
structure InStep (e : Entity T) : Prop where
  entry : ∀ c ∈ e.components, e.componentMap c.type = some c
  owned : ∀ t c, e.componentMap t = some c → c ∈ e.components ∧ c.type = t
  once : e.components.Nodup
  removed : ∀ t, (e.removeComponent t).1 = true →
    (∀ c ∈ (e.removeComponent t).2.components, c.type ≠ t) ∧ (e.removeComponent t).2.hasComponent t = false
  updated : ∀ c, c ∈ e.updateComponents ↔ ∃ t, e.getComponent t = some c
  fixedUpdated : ∀ c, c ∈ e.fixedUpdateComponents ↔ ∃ t, e.getComponent t = some c

namespace Entity

def Op.addsAbsent (e : Entity T) : Op T → Bool
  | .add t _ => !e.hasComponent t
  | .remove _ => true

/-- No call adds a component of a type that is present. -/
def addsAbsent (e : Entity T) : List (Op T) → Bool
  | [] => true
  | o :: ops => o.addsAbsent e && (e.step o).all fun e' => addsAbsent e' ops

end Entity

/-! ## What the calls do -/

/-- What always holds: different components live at different addresses, and the map points to components
    of the right types. -/
structure Entity.Sound (e : Entity T) : Prop where
  addresses : (e.components.map Component.address).Nodup
  owned : ∀ t c, e.componentMap t = some c → c ∈ e.components ∧ c.type = t

/-- Every component can be found. -/
def Entity.Found (e : Entity T) : Prop := ∀ c ∈ e.components, e.componentMap c.type = some c

namespace Entity

variable {e e' : Entity T} {t : T} {address : Nat}

omit [DecidableEq T] in
theorem Sound.eq_of_address (S : e.Sound) {c d : Component T} (hc : c ∈ e.components) (hd : d ∈ e.components)
    (h : c.address = d.address) : c = d :=
  List.inj_on_of_nodup_map S.addresses hc hd h

theorem Sound.mem_remove (S : e.Sound) {target : Component T} (h : e.componentMap t = some target)
    {c : Component T} : c ∈ (e.removeComponent t).2.components ↔ c ∈ e.components ∧ c ≠ target := by
  have hmem := (S.owned t target h).1
  obtain ⟨d, l₁, l₂, -, hd, hlist, herase⟩ :=
    List.exists_of_eraseP (p := fun c : Component T => c.address == target.address) hmem (beq_self_eq_true _)
  -- there is one component at that address
  have hd' : d ∈ e.components := by
    rw [hlist]
    exact List.mem_append_right _ List.mem_cons_self
  obtain rfl := S.eq_of_address hd' hmem (beq_iff_eq.mp hd)
  have hnodup := List.Nodup.of_map _ S.addresses
  rw [hlist, List.nodup_middle, List.nodup_cons] at hnodup
  have hcomponents : (e.removeComponent t).2.components = l₁ ++ l₂ := by
    rw [removeComponent, h]
    exact herase
  rw [hcomponents, hlist]
  have hmiddle : c ∈ l₁ ++ d :: l₂ ↔ c = d ∨ c ∈ l₁ ++ l₂ := by
    rw [List.mem_append, List.mem_cons, or_left_comm, List.mem_append]
  rw [hmiddle]
  constructor
  · intro hc
    refine ⟨.inr hc, ?_⟩
    rintro rfl
    exact hnodup.1 hc
  · rintro ⟨heq | hc, hne⟩
    · exact absurd heq hne
    · exact hc

theorem Sound.add (S : e.Sound) (hnew : ∀ c ∈ e.components, c.address ≠ address) :
    (e.addComponent t address).2.Sound := by
  constructor
  · show ((e.components ++ [(⟨t, address⟩ : Component T)]).map Component.address).Nodup
    rw [List.map_append, List.nodup_append]
    refine ⟨S.addresses, List.nodup_singleton _, ?_⟩
    intro a ha b hb
    obtain ⟨c, hc, rfl⟩ := List.mem_map.mp ha
    obtain rfl := List.mem_singleton.mp hb
    exact hnew c hc
  · intro u c hu
    have hu : update e.componentMap t (some ⟨t, address⟩) u = some c := hu
    show c ∈ e.components ++ [(⟨t, address⟩ : Component T)] ∧ c.type = u
    rw [List.mem_append, List.mem_singleton]
    by_cases heq : u = t
    · subst heq
      rw [update_self] at hu
      obtain rfl := Option.some.inj hu
      exact ⟨.inr rfl, rfl⟩
    · rw [update_of_ne heq] at hu
      obtain ⟨hc, htype⟩ := S.owned u c hu
      exact ⟨.inl hc, htype⟩

theorem Sound.remove (S : e.Sound) (t : T) : (e.removeComponent t).2.Sound := by
  cases h : e.componentMap t with
  | none =>
    rw [removeComponent, h]
    exact S
  | some target =>
    have hmem : ∀ {c}, c ∈ (e.removeComponent t).2.components ↔ c ∈ e.components ∧ c ≠ target := S.mem_remove h
    constructor
    · rw [removeComponent, h]
      exact S.addresses.sublist (List.eraseP_sublist.map _)
    · intro u c hu
      rw [removeComponent, h] at hu
      have hu : update e.componentMap t none u = some c := hu
      by_cases heq : u = t
      · subst heq
        rw [update_self] at hu
        cases hu
      · rw [update_of_ne heq] at hu
        obtain ⟨hc, htype⟩ := S.owned u c hu
        refine ⟨hmem.mpr ⟨hc, ?_⟩, htype⟩
        rintro rfl
        exact heq (htype.symm.trans (S.owned t c h).2)

/-- An old component stays findable just if the type is new. -/
theorem Sound.found_add (S : e.Sound) (hnew : ∀ c ∈ e.components, c.address ≠ address) :
    (e.addComponent t address).2.Found ↔ e.Found ∧ e.hasComponent t = false := by
  have hadd : (e.addComponent t address).2.Found ↔
      ∀ c ∈ e.components, update e.componentMap t (some ⟨t, address⟩) c.type = some c := by
    show (∀ c ∈ e.components ++ [(⟨t, address⟩ : Component T)],
      update e.componentMap t (some ⟨t, address⟩) c.type = some c) ↔ _
    rw [List.forall_mem_append, List.forall_mem_singleton, update_self]
    exact and_iff_left rfl
  rw [hadd]
  constructor
  · intro hall
    have hother : ∀ c ∈ e.components, c.type ≠ t := by
      rintro c hc rfl
      have h := hall c hc
      rw [update_self] at h
      exact hnew c hc (congrArg Component.address (Option.some.inj h)).symm
    refine ⟨fun c hc => ?_, ?_⟩
    · have h := hall c hc
      rwa [update_of_ne (hother c hc)] at h
    · rw [hasComponent, Option.isSome_eq_false_iff, Option.isNone_iff_eq_none]
      cases h : e.componentMap t with
      | none => rfl
      | some c =>
        obtain ⟨hc, htype⟩ := S.owned t c h
        exact absurd htype (hother c hc)
  · rintro ⟨hfound, habsent⟩ c hc
    rw [hasComponent, Option.isSome_eq_false_iff, Option.isNone_iff_eq_none] at habsent
    have hne : c.type ≠ t := by
      rintro rfl
      rw [hfound c hc] at habsent
      cases habsent
    rw [update_of_ne hne]
    exact hfound c hc

/-- What cannot be found is not removed either. -/
theorem Sound.found_remove (S : e.Sound) (t : T) : (e.removeComponent t).2.Found ↔ e.Found := by
  cases h : e.componentMap t with
  | none => rw [removeComponent, h]
  | some target =>
    have htarget := S.owned t target h
    have hmap : ∀ c, c ≠ target → ((e.removeComponent t).2.componentMap c.type = some c ↔ e.componentMap c.type = some c) := by
      intro c hne
      rw [removeComponent, h]
      show update e.componentMap t none c.type = some c ↔ _
      by_cases heq : c.type = t
      · rw [heq, update_self, h]
        exact iff_of_false (by simp) fun heq => hne (Option.some.inj heq).symm
      · rw [update_of_ne heq]
    constructor
    · intro hfound c hc
      by_cases heq : c = target
      · rw [heq, htarget.2]
        exact h
      · exact (hmap c heq).mp (hfound c ((S.mem_remove h).mpr ⟨hc, heq⟩))
    · intro hfound c hc
      obtain ⟨hc, hne⟩ := (S.mem_remove h).mp hc
      exact (hmap c hne).mpr (hfound c hc)

theorem Sound.step (S : e.Sound) {o : Op T} (h : e.step o = some e') :
    e'.Sound ∧ (e'.Found ↔ e.Found ∧ o.addsAbsent e = true) := by
  cases o with
  | add t address =>
    obtain ⟨hnew, rfl⟩ := Option.ite_some_none_eq_some.mp h
    refine ⟨S.add hnew, ?_⟩
    rw [S.found_add hnew, Op.addsAbsent, Bool.not_eq_true']
  | remove t =>
    obtain rfl := Option.some.inj h
    refine ⟨S.remove t, ?_⟩
    rw [S.found_remove t]
    exact (and_iff_left rfl).symm

/-- **A whole sequence of calls.** -/
theorem Sound.exec : ∀ (ops : List (Op T)) {e e' : Entity T}, e.Sound → exec Entity.step ops e = some e' →
    e'.Sound ∧ (e'.Found ↔ e.Found ∧ e.addsAbsent ops = true)
  | [], e, e', S, h => by
    obtain rfl := Option.some.inj h
    exact ⟨S, (and_iff_left rfl).symm⟩
  | o :: ops, e, e', S, h => by
    obtain ⟨e₁, h₁, h₂⟩ := Option.bind_eq_some_iff.mp h
    obtain ⟨S₁, hfound₁⟩ := S.step h₁
    obtain ⟨S', hfound⟩ := Sound.exec ops S₁ h₂
    refine ⟨S', ?_⟩
    rw [hfound, hfound₁, addsAbsent, h₁, Option.all_some, Bool.and_eq_true, and_assoc]

theorem Sound.inStep (S : e.Sound) (hfound : e.Found) : InStep e := by
  have hfind : ∀ c, c ∈ e.components ↔ ∃ t, e.componentMap t = some c :=
    fun c => ⟨fun hc => ⟨c.type, hfound c hc⟩, fun ⟨t, ht⟩ => (S.owned t c ht).1⟩
  refine ⟨hfound, S.owned, .of_map _ S.addresses, fun t hremoved => ?_, hfind, hfind⟩
  cases h : e.componentMap t with
  | none =>
    rw [removeComponent, h] at hremoved
    cases hremoved
  | some target =>
    constructor
    · rintro c hc rfl
      obtain ⟨hc, hne⟩ := (S.mem_remove h).mp hc
      exact hne (Option.some.inj ((hfound c hc).symm.trans h))
    · rw [removeComponent, h]
      show (update e.componentMap t none t).isSome = false
      rw [update_self]
      rfl

end Entity

/-- **Components and index stay in step just if no type is added that is present.**  Any sequence of calls,
    any component types. -/
theorem components_in_step (ops : List (Entity.Op T)) {e : Entity T} (h : exec Entity.step ops {} = some e) :
    InStep e ↔ Entity.addsAbsent {} ops = true := by
  have S : Entity.Sound ({} : Entity T) := ⟨List.nodup_nil, by simp⟩
  obtain ⟨S', hfound⟩ := Entity.Sound.exec ops S h
  have hempty : Entity.Found ({} : Entity T) := by
    intro c hc
    cases hc
  constructor
  · intro I
    exact (hfound.mp I.entry).2
  · intro habsent
    exact S'.inStep (hfound.mpr ⟨hempty, habsent⟩)

/-- A component of each of two types, and a new one of the first type after `RemoveComponent`. -/
theorem components_in_step_two : ∃ e : Entity Bool, e.components = [⟨false, 1⟩, ⟨true, 2⟩] ∧ InStep e := by
  let ops : List (Entity.Op Bool) := [.add true 0, .add false 1, .remove true, .add true 2]
  obtain ⟨e, he, hp⟩ := (Option.any_eq_true _ _).mp
    (show (exec Entity.step ops {}).any (fun e => decide (e.components = [⟨false, 1⟩, ⟨true, 2⟩])) = true by decide)
  exact ⟨e, of_decide_eq_true hp, (components_in_step ops he).mpr (by decide)⟩

/-- **Added twice.**  Two components of one type are added, and the type is removed: one of them is left, it
    is updated, and nobody finds it. -/
theorem added_twice : ∃ e : Entity Unit, exec Entity.step [.add () 0, .add () 1, .remove ()] {} = some e ∧
    e.updateComponents = [⟨(), 0⟩] ∧ e.hasComponent () = false ∧ ¬ InStep e := by
  obtain ⟨e, he, hp⟩ := (Option.any_eq_true _ _).mp
    (show (exec Entity.step [.add () 0, .add () 1, .remove ()] {}).any
      (fun e => decide (e.updateComponents = [⟨(), 0⟩] ∧ e.hasComponent () = false)) = true by decide)
  obtain ⟨hupdate, hhas⟩ := of_decide_eq_true hp
  refine ⟨e, he, hupdate, hhas, fun I => ?_⟩
  obtain ⟨t, ht⟩ := (I.updated ⟨(), 0⟩).mp (by rw [hupdate]; exact List.mem_cons_self)
  rw [Entity.hasComponent, show e.componentMap () = some _ from ht] at hhas
  cases hhas

end JunCore.Logic
