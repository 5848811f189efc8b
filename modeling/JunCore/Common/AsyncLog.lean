/-
  `JunCore/log.h` and `log.cpp`: the logger in asynchronous mode.

  A ring of 4096 messages, a counter of the messages written and one of those read.  `LogAsync` loads
  both, drops its message if the ring looks full, claims the slot behind the last one with a CAS on
  `writeIndex`, and fills it; `valid` is set last.  The logger thread processes the slot at `readIndex`
  as long as it is valid, clears `valid`, and moves on.

  The counters are kept as the number of their increments; the words hold what is left of it modulo
  2^32, and that is all a producer computes with.  The two loads and the CAS are steps of their own, and
  so is each part of filling a slot.  The CAS is the weak one, which may fail for no reason.

  What `FormatLogPrefix` and `vsnprintf` make of a call is given with the call (`Record`); a prefix is
  shorter than `MAX_LOG_LENGTH`.  The logger is made once, by `Initialize`, and never destroyed.
-/
import JunCore.Lib.Transition
import Mathlib.Data.Fintype.Basic
import Mathlib.Data.List.TakeDrop

set_option linter.unusedVariables false
set_option linter.unusedSectionVars false

namespace JunCore.AsyncLog

open Transition Function

/-! ## The program -/

/-- A call of `LogAsync`: the level, the prefix, and the message of the caller. -/
structure Record where
  level : Int
  header : List UInt8
  body : List UInt8
  deriving DecidableEq

/-- A slot of the ring; `text` is the string up to its end. -/
structure LogMessage where
  text : List UInt8 := []
  level : Int := 0
  valid : Bool := false
  deriving DecidableEq

/-- `vsnprintf` behind the prefix, in what is left of the buffer less one. -/
def formatBody (header body : List UInt8) : List UInt8 := header ++ body.take (1022 - header.length)

/-- The newline, if there is room for it. -/
def addNewline (text : List UInt8) : List UInt8 := if text.length < 1022 then text ++ [10] else text

/-- The whole message. -/
def message (r : Record) : LogMessage := ⟨addNewline (formatBody r.header r.body), r.level, true⟩

/-- Where a thread is that logs `r` or shuts the logger down; `w` is `currentWrite`.  `returned` is what a
    call of `Shutdown` could have seen at its beginning, see `Shared`. -/
inductive Pc
  | idle
  -- `LogAsync`
  | loadWrite (r : Record)
  | loadRead (r : Record) (w : Nat)
  | cas (r : Record) (w : Nat)
  | setLevel (r : Record) (w : Nat)
  | formatPrefix (r : Record) (w : Nat)
  | format (r : Record) (w : Nat)
  | newline (r : Record) (w : Nat)
  | setValid (r : Record) (w : Nat)
  -- `Shutdown`
  | testCalled (returned : List Nat)
  | setCalled (returned : List Nat)
  | storeStop (returned : List Nat)
  | join (returned : List Nat)
  | back (returned : List Nat)
  deriving DecidableEq

/-- The logger thread; `r` is `currentReadIdx`. -/
inductive Reader
  | test
  | loop (i : Nat)
  | testValid (i r : Nat)
  | process (i r : Nat)
  | clear (i r : Nat)
  | fetchAdd (i r : Nat)
  | sleep
  | ended
  deriving DecidableEq

/-- The members of `Logger`, and what has happened: the messages whose slot was claimed, in this order;
    the numbers of those whose `LogAsync` has returned; and what was given to `ProcessLogMessage`.  No
    step reads these, except that a call of `Shutdown` keeps the numbers for itself. -/
structure Shared where
  ring : Nat → LogMessage
  writeIndex : Nat := 0
  readIndex : Nat := 0
  shouldStop : Bool := false
  shutdownCalled : Bool := false
  accepted : List Record := []
  returned : List Nat := []
  processed : List LogMessage := []

/-- `InitializeAsyncResources`. -/
def Shared.new : Shared where
  ring _ := {}

/-- What is left of a counter. -/
def word (n : Nat) : Nat := n % 4294967296

/-- The slot of it. -/
def slot (n : Nat) : Nat := word n % 4096

/-- `nextWritePos == readPos`. -/
def isFull (w r : Nat) : Bool := word (word w + 1) % 4096 == slot r

def Shared.write (g : Shared) (w : Nat) (f : LogMessage → LogMessage) : Shared :=
  { g with ring := update g.ring (slot w) (f (g.ring (slot w))) }

/-- The next step of a thread; `ok` is whether a weak CAS that may succeed does.  `reader` is where the
    logger thread is. -/
def Pc.go (g : Shared) (reader : Reader) (ok : Bool) : Pc → Option (Shared × Pc)
  | .idle => none
  | .loadWrite r => some (g, .loadRead r g.writeIndex)
  | .loadRead r w => some (g, if isFull w g.readIndex then .idle else .cas r w)
  | .cas r w =>
      some (if ok && word g.writeIndex == word w then
        ({ g with writeIndex := g.writeIndex + 1, accepted := g.accepted ++ [r] }, .setLevel r w)
      else (g, .loadWrite r))
  | .setLevel r w => some (g.write w fun m => { m with level := r.level }, .formatPrefix r w)
  | .formatPrefix r w => some (g.write w fun m => { m with text := r.header }, .format r w)
  | .format r w =>
      some (g.write w fun m => { m with text := formatBody (m.text.take r.header.length) r.body },
        .newline r w)
  | .newline r w => some (g.write w fun m => { m with text := addNewline m.text }, .setValid r w)
  | .setValid r w =>
      some ({ g.write w fun m => { m with valid := true } with returned := g.returned ++ [w] }, .idle)
  | .testCalled returned => some (g, if g.shutdownCalled then .back returned else .setCalled returned)
  | .setCalled returned => some ({ g with shutdownCalled := true }, .storeStop returned)
  | .storeStop returned => some ({ g with shouldStop := true }, .join returned)
  | .join returned => if reader = .ended then some (g, .back returned) else none
  | .back _ => some (g, .idle)

def Reader.go (g : Shared) : Reader → Option (Shared × Reader)
  | .test => some (g, if g.shouldStop then .ended else .loop 0)
  | .loop i => some (g, if i < 100 then .testValid i g.readIndex else .sleep)
  | .testValid i r => some (g, if (g.ring (slot r)).valid then .process i r else .sleep)
  | .process i r => some ({ g with processed := g.processed ++ [g.ring (slot r)] }, .clear i r)
  | .clear i r => some (g.write r fun m => { m with valid := false }, .fetchAdd i r)
  | .fetchAdd i r => some ({ g with readIndex := g.readIndex + 1 }, .loop (i + 1))
  | .sleep => some (g, .test)
  | .ended => none

structure Sys (T : Type) where
  shared : Shared := .new
  reader : Reader := .test
  threads : T → Pc := fun _ => .idle

inductive Act (T : Type)
  | log (t : T) (r : Record)
  | shutdown (t : T)
  | go (t : T) (ok : Bool)
  | reader

variable {T : Type} [DecidableEq T]

def step (s : Sys T) : Act T → Option (Sys T)
  | .log t r => match s.threads t with
    | .idle => some { s with threads := update s.threads t (.loadWrite r) }
    | _ => none
  | .shutdown t => match s.threads t with
    | .idle => some { s with threads := update s.threads t (.testCalled s.shared.returned) }
    | _ => none
  | .go t ok => ((s.threads t).go s.shared s.reader ok).map fun x =>
      { s with shared := x.1, threads := update s.threads t x.2 }
  | .reader => (s.reader.go s.shared).map fun x => { s with shared := x.1, reader := x.2 }

def logger (T : Type) [DecidableEq T] : System (Sys T) where
  init s := s = {}
  next s s' := ∃ a, step s a = some s'

/-! ## What is to hold -/

/-- The slot a thread is filling, and with what. -/
def Pc.claim : Pc → Option (Record × Nat)
  | .setLevel r w | .formatPrefix r w | .format r w | .newline r w | .setValid r w => some (r, w)
  | _ => none

/-- `writeIndex` has not come round since a thread has loaded it. -/
def Pc.Fresh (g : Shared) : Pc → Prop
  | .loadRead _ w | .cas _ w => g.writeIndex < w + 4294967296
  | _ => True

def Fresh (s s' : Sys T) : Prop := ∀ t, (s.threads t).Fresh s.shared

/-- **In order and without overwriting**: there are never more than 4095 messages in the ring; whoever
    fills a slot does so alone, and after its previous messages have been processed; what was processed is
    the first ones of the accepted messages, whole, none of which is still being filled; and each of the
    others is in its slot, or somebody is still filling it. -/
structure Delivers (s : Sys T) : Prop where
  few : (BitVec.ofNat 32 s.shared.writeIndex - BitVec.ofNat 32 s.shared.readIndex).toNat ≤ 4095
  alone : ∀ (t u : T) (r r' : Record) (w w' : Nat), (s.threads t).claim = some (r, w) →
    (s.threads u).claim = some (r', w') → slot w = slot w' → t = u
  free : ∀ (t : T) (r : Record) (w : Nat), (s.threads t).claim = some (r, w) →
    ∀ j, j < w → slot j = slot w → j < s.shared.processed.length
  processed : s.shared.processed = (s.shared.accepted.take s.shared.processed.length).map message
  filling : ∀ (t : T) (r : Record) (w : Nat), (s.threads t).claim = some (r, w) →
    s.shared.processed.length ≤ w ∧ s.shared.accepted[w]? = some r
  kept : ∀ (j : Nat) (r : Record), s.shared.accepted[j]? = some r → s.shared.processed.length ≤ j →
    (∃ t, (s.threads t).claim = some (r, j)) ∨ s.shared.ring (slot j) = message r

/-! ## What the steps do -/

theorem slot_eq (n : Nat) : slot n = n % 4096 := by
  unfold slot word
  omega

/-- The slots of 4096 messages in a row are different. -/
theorem slot_inj {r i j : Nat} (h : slot i = slot j) (hi : r ≤ i) (hi' : i < r + 4096) (hj : r ≤ j)
    (hj' : j < r + 4096) : i = j := by
  rw [slot_eq, slot_eq] at h
  omega

theorem isFull_iff (w r : Nat) : isFull w r = true ↔ (w + 1) % 4096 = r % 4096 := by
  unfold isFull
  rw [beq_iff_eq, slot_eq]
  unfold word
  omega

theorem Shared.write_ring (g : Shared) (w : Nat) (f : LogMessage → LogMessage) :
    (g.write w f).ring (slot w) = f (g.ring (slot w)) := by
  show update g.ring (slot w) _ (slot w) = _
  rw [update_self]

theorem Shared.write_ring_ne (g : Shared) {w j : Nat} (f : LogMessage → LogMessage)
    (h : slot j ≠ slot w) : (g.write w f).ring (slot j) = g.ring (slot j) :=
  update_of_ne h _ _

/-- Not in `LogAsync`. -/
def Pc.outside : Pc → Bool
  | .idle | .testCalled _ | .setCalled _ | .storeStop _ | .join _ | .back _ => true
  | _ => false

/-- What is in the slot so far. -/
def Pc.Holds (m : LogMessage) : Pc → Prop
  | .formatPrefix r _ => m.level = r.level
  | .format r _ => m.level = r.level ∧ m.text = r.header
  | .newline r _ => m.level = r.level ∧ m.text = formatBody r.header r.body
  | .setValid r _ => m.level = r.level ∧ m.text = addNewline (formatBody r.header r.body)
  | _ => True

/-- The steps of a thread. -/
inductive Pc.Moves (g : Shared) : Pc → Shared → Pc → Prop
  | outside {pc pc' : Pc} (stop called : Bool) (h : pc.outside = true) (h' : pc'.outside = true) :
      Moves g pc { g with shouldStop := stop, shutdownCalled := called } pc'
  | log (r : Record) : Moves g .idle g (.loadWrite r)
  | load (r : Record) : Moves g (.loadWrite r) g (.loadRead r g.writeIndex)
  | full (r : Record) (w : Nat) : Moves g (.loadRead r w) g .idle
  | room (r : Record) (w : Nat) (h : isFull w g.readIndex = false) : Moves g (.loadRead r w) g (.cas r w)
  | retry (r : Record) (w : Nat) : Moves g (.cas r w) g (.loadWrite r)
  | claim (r : Record) (w : Nat) (h : word g.writeIndex = word w) : Moves g (.cas r w)
      { g with writeIndex := g.writeIndex + 1, accepted := g.accepted ++ [r] } (.setLevel r w)
  | fill {pc pc' : Pc} {r : Record} {w : Nat} (f : LogMessage → LogMessage)
      (h : pc.claim = some (r, w)) (h' : pc'.claim = some (r, w)) (hf : ∀ m, (f m).valid = m.valid)
      (hs : ∀ m, pc.Holds m → pc'.Holds (f m)) : Moves g pc (g.write w f) pc'
  | publish (r : Record) (w : Nat) : Moves g (.setValid r w)
      { g.write w fun m => { m with valid := true } with returned := g.returned ++ [w] } .idle

theorem Pc.go_moves {g g' : Shared} {reader : Reader} {ok : Bool} {pc pc' : Pc}
    (h : pc.go g reader ok = some (g', pc')) : pc.Moves g g' pc' := by
  cases pc with
  | idle => cases h
  | loadWrite r =>
    obtain ⟨rfl, rfl⟩ := Prod.mk.inj (Option.some.inj h)
    exact .load r
  | loadRead r w =>
    obtain ⟨rfl, rfl⟩ := Prod.mk.inj (Option.some.inj h)
    split
    · exact .full r w
    · exact .room r w (Bool.eq_false_iff.mpr ‹_›)
  | cas r w =>
    have h := Option.some.inj h
    split at h
    · rename_i hw
      rw [Bool.and_eq_true, beq_iff_eq] at hw
      obtain ⟨rfl, rfl⟩ := Prod.mk.inj h
      exact .claim r w hw.2
    · obtain ⟨rfl, rfl⟩ := Prod.mk.inj h
      exact .retry r w
  | setLevel r w =>
    obtain ⟨rfl, rfl⟩ := Prod.mk.inj (Option.some.inj h)
    exact .fill _ rfl rfl (fun _ => rfl) (fun _ _ => rfl)
  | formatPrefix r w =>
    obtain ⟨rfl, rfl⟩ := Prod.mk.inj (Option.some.inj h)
    exact .fill _ rfl rfl (fun _ => rfl) (fun _ hm => ⟨hm, rfl⟩)
  | format r w =>
    obtain ⟨rfl, rfl⟩ := Prod.mk.inj (Option.some.inj h)
    refine .fill _ rfl rfl (fun _ => rfl) (fun m hm => ⟨hm.1, ?_⟩)
    show formatBody (m.text.take r.header.length) r.body = _
    rw [hm.2, List.take_length]
  | newline r w =>
    obtain ⟨rfl, rfl⟩ := Prod.mk.inj (Option.some.inj h)
    refine .fill _ rfl rfl (fun _ => rfl) (fun m hm => ⟨hm.1, ?_⟩)
    show addNewline m.text = _
    rw [hm.2]
  | setValid r w =>
    obtain ⟨rfl, rfl⟩ := Prod.mk.inj (Option.some.inj h)
    exact .publish r w
  | testCalled returned =>
    obtain ⟨rfl, rfl⟩ := Prod.mk.inj (Option.some.inj h)
    refine .outside g.shouldStop g.shutdownCalled rfl ?_
    split <;> rfl
  | setCalled returned =>
    obtain ⟨rfl, rfl⟩ := Prod.mk.inj (Option.some.inj h)
    exact .outside g.shouldStop true rfl rfl
  | storeStop returned =>
    obtain ⟨rfl, rfl⟩ := Prod.mk.inj (Option.some.inj h)
    exact .outside true g.shutdownCalled rfl rfl
  | join returned =>
    simp only [Pc.go] at h
    split at h
    · obtain ⟨rfl, rfl⟩ := Prod.mk.inj (Option.some.inj h)
      exact .outside g.shouldStop g.shutdownCalled rfl rfl
    · cases h
  | back returned =>
    obtain ⟨rfl, rfl⟩ := Prod.mk.inj (Option.some.inj h)
    exact .outside g.shouldStop g.shutdownCalled rfl rfl

/-- A step is one of a thread or one of the reader. -/
theorem step_cases {s s' : Sys T} {a : Act T} (h : step s a = some s') :
    (∃ t g pc, (s.threads t).Moves s.shared g pc ∧
      s' = { s with shared := g, threads := update s.threads t pc }) ∨
    ∃ g rd, s.reader.go s.shared = some (g, rd) ∧ s' = { s with shared := g, reader := rd } := by
  cases a with
  | log t r =>
    simp only [step] at h
    split at h
    · obtain rfl := Option.some.inj h
      rename_i hpc
      refine .inl ⟨t, s.shared, _, ?_, rfl⟩
      rw [hpc]
      exact .log r
    · cases h
  | shutdown t =>
    simp only [step] at h
    split at h
    · obtain rfl := Option.some.inj h
      rename_i hpc
      refine .inl ⟨t, s.shared, _, ?_, rfl⟩
      rw [hpc]
      exact .outside s.shared.shouldStop s.shared.shutdownCalled rfl rfl
    · cases h
  | go t ok =>
    obtain ⟨⟨g, pc⟩, hgo, rfl⟩ := Option.map_eq_some_iff.mp h
    exact .inl ⟨t, g, pc, Pc.go_moves hgo, rfl⟩
  | reader =>
    obtain ⟨⟨g, rd⟩, hgo, rfl⟩ := Option.map_eq_some_iff.mp h
    exact .inr ⟨g, rd, hgo, rfl⟩

/-! ## The ring -/

/-- What a thread that has loaded the indices knows of them. -/
def Pc.Looks (g : Shared) : Pc → Prop
  | .loadRead _ w => w ≤ g.writeIndex
  | .cas _ w => w ≤ g.writeIndex ∧ (w = g.writeIndex → g.writeIndex < g.readIndex + 4095)
  | _ => True

def Claimed (threads : T → Pc) (w : Nat) : Prop := ∃ t r, (threads t).claim = some (r, w)

/-- The reader is at the first message that is left, which is whole. -/
def Reader.Sound (g : Shared) (threads : T → Pc) : Reader → Prop
  | .testValid _ r => r = g.readIndex
  | .process _ r | .clear _ r => r = g.readIndex ∧ r < g.writeIndex ∧ ¬ Claimed threads r ∧
      (g.ring (slot r)).valid = true
  | .fetchAdd _ r => r = g.readIndex ∧ r < g.writeIndex ∧ ¬ Claimed threads r ∧
      (g.ring (slot r)).valid = false
  | _ => True

/-- It has processed the message and not yet moved on. -/
def Reader.ahead : Reader → Nat
  | .clear _ _ | .fetchAdd _ _ => 1
  | _ => 0

/-- It has cleared the slot and not yet moved on. -/
def Reader.cleared : Reader → Bool
  | .fetchAdd _ _ => true
  | _ => false

/-- **The invariant.**  The messages from `readIndex` on are in their slots, or somebody fills the slot;
    the other slots are empty. -/
structure Ring (g : Shared) (reader : Reader) (threads : T → Pc) : Prop where
  length : g.accepted.length = g.writeIndex
  behind : g.readIndex ≤ g.writeIndex
  few : g.writeIndex ≤ g.readIndex + 4095
  looks : ∀ t, (threads t).Looks g
  claims : ∀ t r w, (threads t).claim = some (r, w) → g.readIndex ≤ w ∧ g.accepted[w]? = some r ∧
    (g.ring (slot w)).valid = false ∧ (threads t).Holds (g.ring (slot w))
  alone : ∀ t u r r' w, (threads t).claim = some (r, w) → (threads u).claim = some (r', w) → t = u
  filled : ∀ j r, g.accepted[j]? = some r →
    g.readIndex ≤ j ∧ (reader.cleared = true → j ≠ g.readIndex) →
    Claimed threads j ∨ g.ring (slot j) = message r
  free : ∀ j, g.writeIndex ≤ j → j < g.readIndex + 4096 → (g.ring (slot j)).valid = false
  sound : reader.Sound g threads
  processed : g.processed = (g.accepted.take (g.readIndex + reader.ahead)).map message

section

variable {g : Shared} {reader : Reader} {threads : T → Pc}

theorem Ring.claim_lt (I : Ring g reader threads) {t : T} {r : Record} {w : Nat}
    (h : (threads t).claim = some (r, w)) : w < g.writeIndex := by
  obtain ⟨hw, _⟩ := List.getElem?_eq_some_iff.mp (I.claims t r w h).2.1
  have := I.length
  omega

/-- Who has processed a message has one more behind it than `readIndex` says. -/
theorem Ring.ahead_le (I : Ring g reader threads) : g.readIndex + reader.ahead ≤ g.writeIndex := by
  have hbehind := I.behind
  have hreader := I.sound
  cases reader with
  | clear _ _ | fetchAdd _ _ =>
    obtain ⟨hr, hlt, _⟩ := hreader
    rw [Reader.ahead]
    omega
  | _ => exact hbehind

theorem Ring.processed_length (I : Ring g reader threads) :
    g.processed.length = g.readIndex + reader.ahead := by
  rw [I.processed, List.length_map, List.length_take, I.length]
  exact Nat.min_eq_left I.ahead_le

/-- A message that is still being filled has not been processed. -/
theorem Ring.ahead_of_claimed (I : Ring g reader threads) {w : Nat} (h : Claimed threads w) :
    reader.ahead = 0 ∨ w ≠ g.readIndex := by
  have hsound := I.sound
  cases reader with
  | clear _ _ | fetchAdd _ _ =>
    obtain ⟨rfl, _, hfree, _⟩ := hsound
    refine .inr ?_
    rintro rfl
    exact hfree h
  | _ => exact .inl rfl

theorem Reader.ahead_le_one (reader : Reader) : reader.ahead ≤ 1 := by
  cases reader <;> first | exact Nat.le_refl 1 | exact Nat.zero_le 1

theorem Reader.ahead_of_cleared {reader : Reader} (h : reader.cleared = true) : reader.ahead = 1 := by
  cases reader with
  | fetchAdd _ _ => rfl
  | _ => cases h

end

theorem Ring.delivers {s : Sys T} (I : Ring s.shared s.reader s.threads) : Delivers s := by
  have hbehind := I.behind
  have hfew := I.few
  have hlength := I.processed_length
  have hahead := I.ahead_le
  refine ⟨?_, fun t u r r' w w' ht hu hslot => ?_, fun t r w ht j hj hslot => ?_, ?_, fun t r w ht => ?_,
    fun j r hj hle => ?_⟩
  · rw [BitVec.toNat_sub, BitVec.toNat_ofNat, BitVec.toNat_ofNat]
    omega
  · have hr := (I.claims t r w ht).1
    have hr' := (I.claims u r' w' hu).1
    have hlt := I.claim_lt ht
    have hlt' := I.claim_lt hu
    obtain rfl := slot_inj hslot hr (by omega) hr' (by omega)
    exact I.alone t u r r' w ht hu
  · have hlt := I.claim_lt ht
    rw [slot_eq, slot_eq] at hslot
    omega
  · rw [hlength]
    exact I.processed
  · obtain ⟨hle, hrec, -⟩ := I.claims t r w ht
    have hne : s.reader.ahead = 0 ∨ w ≠ s.shared.readIndex := I.ahead_of_claimed ⟨t, r, ht⟩
    refine ⟨?_, hrec⟩
    have : s.reader.ahead ≤ 1 := s.reader.ahead_le_one
    omega
  · rw [hlength] at hle
    have hnext : s.reader.cleared = true → j ≠ s.shared.readIndex := by
      intro hc hj
      rw [Reader.ahead_of_cleared hc] at hle
      omega
    rcases I.filled j r hj ⟨by omega, hnext⟩ with ⟨t, r', ht⟩ | hm
    · obtain rfl := Option.some.inj (hj.symm.trans (I.claims t r' j ht).2.1)
      exact .inl ⟨t, ht⟩
    · exact .inr hm

/-! ## Each step keeps it -/

section

variable {g : Shared} {reader : Reader} {threads : T → Pc}

theorem claim_update {t : T} {pc : Pc} (h : pc.claim = (threads t).claim) (u : T) :
    (update threads t pc u).claim = (threads u).claim := by
  rw [update_apply]
  split
  · rename_i hu
    rw [hu, h]
  · rfl

theorem claimed_update {t : T} {pc : Pc} (h : pc.claim = (threads t).claim) (w : Nat) :
    Claimed (update threads t pc) w ↔ Claimed threads w :=
  exists_congr fun u => exists_congr fun r => by rw [claim_update h]

theorem looks_update {g' : Shared} {t : T} {pc : Pc} (h : ∀ u, u ≠ t → (threads u).Looks g')
    (hpc : pc.Looks g') (u : T) : (update threads t pc u).Looks g' := by
  rw [update_apply]
  split
  · exact hpc
  · exact h u ‹_›

theorem Pc.Looks.same {g' : Shared} {pc : Pc} (h : pc.Looks g) (hwrite : g'.writeIndex = g.writeIndex)
    (hread : g'.readIndex = g.readIndex) : pc.Looks g' := by
  cases pc with
  | loadRead r w =>
    show w ≤ g'.writeIndex
    rw [hwrite]
    exact h
  | cas r w =>
    show w ≤ g'.writeIndex ∧ (w = g'.writeIndex → g'.writeIndex < g'.readIndex + 4095)
    rw [hwrite, hread]
    exact h
  | _ => exact trivial

/-- What the reader knows does not change with the claims of others. -/
theorem Reader.Sound.congr {g' : Shared} {threads' : T → Pc} {reader : Reader}
    (h : reader.Sound g threads) (hread : g'.readIndex = g.readIndex)
    (hwrite : g.writeIndex ≤ g'.writeIndex)
    (hclaimed : ∀ w, w < g.writeIndex → Claimed threads' w → Claimed threads w)
    (hring : ∀ w, w < g.writeIndex → w = g.readIndex → ¬ Claimed threads w →
      (g'.ring (slot w)).valid = (g.ring (slot w)).valid) : reader.Sound g' threads' := by
  cases reader with
  | testValid i r =>
    show r = g'.readIndex
    rw [hread]
    exact h
  | process i r | clear i r | fetchAdd i r =>
    obtain ⟨hr, hlt, hfree, hvalid⟩ := h
    refine ⟨by rw [hread]; exact hr, by omega, fun hc => hfree (hclaimed r hlt hc), ?_⟩
    rw [hring r hlt hr hfree]
    exact hvalid
  | _ => exact trivial

/-- A step of a thread that leaves the ring alone and has no slot. -/
theorem Ring.quiet (I : Ring g reader threads) {t : T} {pc : Pc} (stop called : Bool)
    (hpc : (threads t).claim = none) (hpc' : pc.claim = none) (hlooks : pc.Looks g) :
    Ring { g with shouldStop := stop, shutdownCalled := called } reader (update threads t pc) := by
  have hclaim := claim_update (hpc'.trans hpc.symm)
  have hclaimed := claimed_update (hpc'.trans hpc.symm)
  refine ⟨I.length, I.behind, I.few, ?_, fun u r w hu => ?_, fun u v r r' w hu hv => ?_,
    fun j r hj hle => ?_, I.free, ?_, I.processed⟩
  · exact looks_update (fun u _ => (I.looks u).same rfl rfl) (hlooks.same rfl rfl)
  · have hne : u ≠ t := by
      rintro rfl
      rw [update_self, hpc'] at hu
      cases hu
    rw [hclaim] at hu
    rw [update_of_ne hne]
    exact I.claims u r w hu
  · rw [hclaim] at hu hv
    exact I.alone u v r r' w hu hv
  · rw [hclaimed]
    exact I.filled j r hj hle
  · exact I.sound.congr rfl (Nat.le_refl _) (fun w _ => (hclaimed w).mp) fun _ _ _ _ => rfl

/-- A slot is claimed. -/
theorem Ring.claim (I : Ring g reader threads) {t : T} {r : Record} {w : Nat}
    (hpc : threads t = .cas r w) (hw : w = g.writeIndex) :
    Ring { g with writeIndex := g.writeIndex + 1, accepted := g.accepted ++ [r] } reader
      (update threads t (.setLevel r w)) := by
  subst hw
  have hlength := I.length
  have hbehind := I.behind
  have hfew : g.writeIndex < g.readIndex + 4095 := by
    have hlooks := I.looks t
    rw [hpc] at hlooks
    exact hlooks.2 rfl
  -- its own claim, or one from before
  have hclaim : ∀ u r' w', (update threads t (.setLevel r g.writeIndex) u).claim = some (r', w') →
      u = t ∧ r' = r ∧ w' = g.writeIndex ∨ u ≠ t ∧ (threads u).claim = some (r', w') := by
    intro u r' w' hu
    rw [update_apply] at hu
    split at hu
    · obtain ⟨rfl, rfl⟩ := Prod.mk.inj (Option.some.inj hu)
      exact .inl ⟨‹_›, rfl, rfl⟩
    · exact .inr ⟨‹_›, hu⟩
  have hclaimed : ∀ w', w' < g.writeIndex →
      Claimed (update threads t (.setLevel r g.writeIndex)) w' → Claimed threads w' := by
    rintro w' hlt ⟨u, r', hu⟩
    rcases hclaim u r' w' hu with ⟨-, -, h⟩ | ⟨-, h⟩
    · omega
    · exact ⟨u, r', h⟩
  have hkept : ∀ w', Claimed threads w' → Claimed (update threads t (.setLevel r g.writeIndex)) w' := by
    rintro w' ⟨u, r', hu⟩
    refine ⟨u, r', ?_⟩
    rw [update_of_ne]
    · exact hu
    · rintro rfl
      rw [hpc] at hu
      cases hu
  refine ⟨?_, ?_, ?_, ?_, fun u r' w' hu => ?_, fun u v r' r'' w' hu hv => ?_, fun j r' hj hle => ?_,
    fun j hj hj' => ?_, ?_, ?_⟩
  · dsimp only
    rw [List.length_append, List.length_singleton, hlength]
  · dsimp only
    omega
  · dsimp only
    omega
  · refine looks_update (fun u _ => ?_) trivial
    have hu := I.looks u
    cases hpcu : threads u <;> rw [hpcu] at hu <;> simp only [Pc.Looks] at hu ⊢ <;> omega
  · dsimp only
    rcases hclaim u r' w' hu with ⟨rfl, rfl, rfl⟩ | ⟨hne, hu⟩
    · refine ⟨hbehind, ?_, I.free _ (Nat.le_refl _) (by omega), ?_⟩
      · rw [List.getElem?_append_right (by omega), hlength, Nat.sub_self]
        rfl
      · rw [update_self]
        exact trivial
    · obtain ⟨hle, hrec, hrest⟩ := I.claims u r' w' hu
      rw [update_of_ne hne]
      refine ⟨hle, ?_, hrest⟩
      rw [List.getElem?_append_left (by have := I.claim_lt hu; omega)]
      exact hrec
  · rcases hclaim u r' w' hu with ⟨hut, -, hw⟩ | ⟨_, hu⟩ <;>
      rcases hclaim v r'' w' hv with ⟨hvt, -, hw'⟩ | ⟨_, hv⟩
    · exact hut.trans hvt.symm
    · have := I.claim_lt hv
      omega
    · have := I.claim_lt hu
      omega
    · exact I.alone u v r' r'' w' hu hv
  · dsimp only at hj hle
    rcases Nat.lt_or_ge j g.writeIndex with hlt | hge
    · rw [List.getElem?_append_left (by omega)] at hj
      exact (I.filled j r' hj hle).imp (hkept j) id
    · obtain ⟨hlt, -⟩ := List.getElem?_eq_some_iff.mp hj
      rw [List.length_append, List.length_singleton, hlength] at hlt
      obtain rfl : j = g.writeIndex := by omega
      exact .inl ⟨t, r, by rw [update_self]; rfl⟩
  · exact I.free j (by dsimp only at hj; omega) hj'
  · exact I.sound.congr rfl (Nat.le_succ _) hclaimed fun _ _ _ _ => rfl
  · dsimp only
    rw [List.take_append_of_le_length (by have := I.ahead_le; omega)]
    exact I.processed

end

section

variable {g : Shared} {reader : Reader} {threads : T → Pc}

/-- The other messages of the ring are not in this slot. -/
theorem Ring.slot_ne (I : Ring g reader threads) {w j : Nat} (hw : g.readIndex ≤ w)
    (hlt : w < g.writeIndex) (hj : g.readIndex ≤ j) (hj' : j < g.readIndex + 4096) (hne : j ≠ w) :
    slot j ≠ slot w := by
  have := I.few
  exact fun h => hne (slot_inj h hj hj' hw (by omega))

/-- A part of a slot is filled. -/
theorem Ring.fill (I : Ring g reader threads) {t : T} {r : Record} {w : Nat} {pc : Pc}
    {f : LogMessage → LogMessage} (hpc : (threads t).claim = some (r, w)) (hpc' : pc.claim = some (r, w))
    (hf : ∀ m, (f m).valid = m.valid) (hs : ∀ m, (threads t).Holds m → pc.Holds (f m)) :
    Ring (g.write w f) reader (update threads t pc) := by
  have hclaim := claim_update (hpc'.trans hpc.symm)
  have hclaimed := claimed_update (hpc'.trans hpc.symm)
  obtain ⟨hle, hrec, hvalid, hholds⟩ := I.claims t r w hpc
  have hlt := I.claim_lt hpc
  have hfew := I.few
  refine ⟨I.length, I.behind, I.few, ?_, fun u r' w' hu => ?_, fun u v r' r'' w' hu hv => ?_,
    fun j r' hj hj' => ?_, fun j hj hj' => ?_, ?_, I.processed⟩
  · refine looks_update (fun u _ => (I.looks u).same rfl rfl) ?_
    cases pc with
    | loadRead _ _ | cas _ _ => cases hpc'
    | _ => exact trivial
  · rw [hclaim] at hu
    obtain ⟨hle', hrec', hvalid', hholds'⟩ := I.claims u r' w' hu
    by_cases hut : u = t
    · subst hut
      obtain ⟨rfl, rfl⟩ := Prod.mk.inj (Option.some.inj (hpc.symm.trans hu))
      rw [update_self, Shared.write_ring, hf]
      exact ⟨hle, hrec, hvalid, hs _ hholds⟩
    · have hne : w' ≠ w := by
        rintro rfl
        exact hut (I.alone u t r' r w' hu hpc)
      have hlt' := I.claim_lt hu
      rw [update_of_ne hut, Shared.write_ring_ne g f (I.slot_ne hle hlt hle' (by omega) hne)]
      exact ⟨hle', hrec', hvalid', hholds'⟩
  · rw [hclaim] at hu hv
    exact I.alone u v r' r'' w' hu hv
  · rw [hclaimed]
    have hjlt : j < g.writeIndex := by
      obtain ⟨h, -⟩ := List.getElem?_eq_some_iff.mp hj
      rw [← I.length]
      exact h
    by_cases hjw : j = w
    · exact .inl ⟨t, r, by rw [hjw]; exact hpc⟩
    · rw [Shared.write_ring_ne g f (I.slot_ne hle hlt hj'.1 (by omega) hjw)]
      exact I.filled j r' hj hj'
  · rw [Shared.write_ring_ne g f
      (I.slot_ne hle hlt (Nat.le_trans I.behind hj) hj' (by dsimp only [Shared.write] at hj; omega))]
    exact I.free j hj hj'
  · refine I.sound.congr rfl (Nat.le_refl _) (fun w' _ => (hclaimed w').mp) fun w' hlt' hw' hfree => ?_
    by_cases hww : w' = w
    · exact absurd ⟨t, r, by rw [hww]; exact hpc⟩ hfree
    · rw [Shared.write_ring_ne g f (I.slot_ne hle hlt (by omega) (by omega) hww)]

/-- A message is whole. -/
theorem Ring.publish (I : Ring g reader threads) {t : T} {r : Record} {w : Nat}
    (hpc : threads t = .setValid r w) :
    Ring { g.write w fun m => { m with valid := true } with returned := g.returned ++ [w] } reader
      (update threads t .idle) := by
  have hmine : (threads t).claim = some (r, w) := by rw [hpc]; rfl
  obtain ⟨hle, hrec, -, hholds⟩ := I.claims t r w hmine
  rw [hpc] at hholds
  have hlt := I.claim_lt hmine
  have hfew := I.few
  have hclaim : ∀ u x, (update threads t .idle u).claim = some x → u ≠ t ∧ (threads u).claim = some x := by
    intro u x hu
    rw [update_apply] at hu
    split at hu
    · cases hu
    · exact ⟨‹_›, hu⟩
  have hclaimed : ∀ w', Claimed (update threads t .idle) w' → Claimed threads w' :=
    fun w' ⟨u, r', hu⟩ => ⟨u, r', (hclaim u _ hu).2⟩
  have hother : ∀ j, g.readIndex ≤ j → j < g.readIndex + 4096 → j ≠ w →
      (g.write w fun m => { m with valid := true }).ring (slot j) = g.ring (slot j) :=
    fun j hj hj' hne => Shared.write_ring_ne g _ (I.slot_ne hle hlt hj hj' hne)
  refine ⟨I.length, I.behind, I.few, ?_, fun u r' w' hu => ?_, fun u v r' r'' w' hu hv => ?_,
    fun j r' hj hj' => ?_, fun j hj hj' => ?_, ?_, I.processed⟩
  · exact looks_update (fun u _ => (I.looks u).same rfl rfl) trivial
  · obtain ⟨hne, hu⟩ := hclaim u _ hu
    obtain ⟨hle', hrec', hrest⟩ := I.claims u r' w' hu
    have hww : w' ≠ w := by
      rintro rfl
      exact hne (I.alone u t r' r w' hu hmine)
    have hlt' := I.claim_lt hu
    rw [update_of_ne hne]
    dsimp only
    rw [hother w' hle' (by omega) hww]
    exact ⟨hle', hrec', hrest⟩
  · exact I.alone u v r' r'' w' (hclaim u _ hu).2 (hclaim v _ hv).2
  · have hjlt : j < g.writeIndex := by
      obtain ⟨h, -⟩ := List.getElem?_eq_some_iff.mp hj
      rw [← I.length]
      exact h
    dsimp only
    by_cases hjw : j = w
    · subst hjw
      obtain rfl := Option.some.inj (hrec.symm.trans hj)
      refine .inr ?_
      rw [Shared.write_ring]
      exact congrArg₂ (fun level text => LogMessage.mk text level true) hholds.1 hholds.2
    · rw [hother j hj'.1 (by omega) hjw]
      refine (I.filled j r' hj hj').imp (fun ⟨u, r'', hu⟩ => ⟨u, r'', ?_⟩) id
      rw [update_of_ne]
      · exact hu
      · rintro rfl
        rw [hmine] at hu
        exact hjw (Prod.mk.inj (Option.some.inj hu)).2.symm
  · dsimp only [Shared.write] at hj hj'
    dsimp only
    rw [hother j (Nat.le_trans I.behind hj) hj' (by omega)]
    exact I.free j hj hj'
  · refine I.sound.congr rfl (Nat.le_refl _) (fun w' _ => hclaimed w') fun w' hlt' hw' hfree => ?_
    by_cases hww : w' = w
    · exact absurd ⟨t, r, by rw [hww]; exact hmine⟩ hfree
    · dsimp only
      rw [hother w' (by omega) (by omega) hww]

/-- **A step of a thread.** -/
theorem Pc.Moves.ring {t : T} {g' : Shared} {pc : Pc} (I : Ring g reader threads)
    (M : (threads t).Moves g g' pc) (hfresh : (threads t).Fresh g) :
    Ring g' reader (update threads t pc) := by
  have hlooks := I.looks t
  generalize hpc : threads t = from_ at M hfresh hlooks
  cases M with
  | outside stop called h h' =>
    refine I.quiet stop called (by rw [hpc]; cases from_ <;> first | rfl | cases h) ?_ ?_
    · cases pc <;> first | rfl | cases h'
    · cases pc <;> first | exact trivial | cases h'
  | log r => exact I.quiet g.shouldStop g.shutdownCalled (by rw [hpc]; rfl) rfl trivial
  | load r => exact I.quiet g.shouldStop g.shutdownCalled (by rw [hpc]; rfl) rfl (Nat.le_refl g.writeIndex)
  | full r w => exact I.quiet g.shouldStop g.shutdownCalled (by rw [hpc]; rfl) rfl trivial
  | room r w h =>
    refine I.quiet g.shouldStop g.shutdownCalled (by rw [hpc]; rfl) rfl ⟨hlooks, fun hw => ?_⟩
    have hfew := I.few
    rw [← Bool.not_eq_true, isFull_iff] at h
    omega
  | retry r w => exact I.quiet g.shouldStop g.shutdownCalled (by rw [hpc]; rfl) rfl trivial
  | claim r w h =>
    refine I.claim hpc ?_
    obtain ⟨hle, -⟩ := hlooks
    have hfresh : g.writeIndex < w + 4294967296 := hfresh
    unfold word at h
    omega
  | fill f h h' hf hs => exact I.fill (by rw [hpc]; exact h) h' hf (by rw [hpc]; exact hs)
  | publish r w => exact I.publish hpc

/-- **A step of the reader.** -/
theorem Ring.read {g' : Shared} {reader' : Reader} (I : Ring g reader threads)
    (h : reader.go g = some (g', reader')) : Ring g' reader' threads := by
  obtain ⟨hlength, hbehind, hfew, hlooks, hclaims, halone, hfilled, hfree, hsound, hprocessed⟩ := I
  cases reader with
  | test =>
    obtain ⟨rfl, rfl⟩ := Prod.mk.inj (Option.some.inj h)
    split <;> exact ⟨hlength, hbehind, hfew, hlooks, hclaims, halone, hfilled, hfree, trivial, hprocessed⟩
  | loop i =>
    obtain ⟨rfl, rfl⟩ := Prod.mk.inj (Option.some.inj h)
    split
    · exact ⟨hlength, hbehind, hfew, hlooks, hclaims, halone, hfilled, hfree, rfl, hprocessed⟩
    · exact ⟨hlength, hbehind, hfew, hlooks, hclaims, halone, hfilled, hfree, trivial, hprocessed⟩
  | testValid i r =>
    obtain ⟨rfl, rfl⟩ := Prod.mk.inj (Option.some.inj h)
    split
    · rename_i hvalid
      obtain rfl : r = g.readIndex := hsound
      refine ⟨hlength, hbehind, hfew, hlooks, hclaims, halone, hfilled, hfree, ⟨rfl, ?_, ?_, hvalid⟩, hprocessed⟩
      · -- were there no message left, the slot would be empty
        refine Nat.lt_of_not_le fun hle => ?_
        rw [hfree _ hle (by omega)] at hvalid
        cases hvalid
      · rintro ⟨t, r, ht⟩
        rw [(hclaims t r _ ht).2.2.1] at hvalid
        cases hvalid
    · exact ⟨hlength, hbehind, hfew, hlooks, hclaims, halone, hfilled, hfree, trivial, hprocessed⟩
  | process i r =>
    obtain ⟨rfl, rfl⟩ := Prod.mk.inj (Option.some.inj h)
    obtain ⟨rfl, hlt, hclaimed, hvalid⟩ := hsound
    refine ⟨hlength, hbehind, hfew, fun t => (hlooks t).same rfl rfl, hclaims, halone, hfilled, hfree,
      ⟨rfl, hlt, hclaimed, hvalid⟩, ?_⟩
    · have hrec : g.accepted[g.readIndex]? = some g.accepted[g.readIndex] := List.getElem?_eq_getElem (by omega)
      have hmsg := (hfilled _ _ hrec ⟨Nat.le_refl _, by simp [Reader.cleared]⟩).resolve_left hclaimed
      show g.processed ++ [g.ring (slot g.readIndex)] = (g.accepted.take (g.readIndex + 1)).map message
      rw [hmsg, hprocessed, List.take_add_one, hrec, List.map_append]
      rfl
  | clear i r =>
    obtain ⟨rfl, rfl⟩ := Prod.mk.inj (Option.some.inj h)
    obtain ⟨rfl, hlt, hclaimed, hvalid⟩ := hsound
    have hother : ∀ j, g.readIndex ≤ j → j < g.readIndex + 4096 → j ≠ g.readIndex →
        (g.write g.readIndex fun m => { m with valid := false }).ring (slot j) = g.ring (slot j) :=
      fun j hj hj' hne => Shared.write_ring_ne g _ fun h => hne (slot_inj h hj hj' (Nat.le_refl _) (by omega))
    refine ⟨hlength, hbehind, hfew, fun t => (hlooks t).same rfl rfl, fun t r w ht => ?_, halone,
      fun j r hj hj' => ?_, fun j hj hj' => ?_, ⟨rfl, hlt, hclaimed, by rw [Shared.write_ring]⟩, hprocessed⟩
    · obtain ⟨hle, hrec, hrest⟩ := hclaims t r w ht
      obtain ⟨hwlt, -⟩ := List.getElem?_eq_some_iff.mp hrec
      rw [hother w hle (by omega) (by rintro rfl; exact hclaimed ⟨t, r, ht⟩)]
      exact ⟨hle, hrec, hrest⟩
    · obtain ⟨hjlt, -⟩ := List.getElem?_eq_some_iff.mp hj
      have hjlt : j < g.accepted.length := hjlt
      rw [hother j hj'.1 (by omega) (hj'.2 rfl)]
      exact hfilled j r hj ⟨hj'.1, by simp [Reader.cleared]⟩
    · dsimp only [Shared.write] at hj hj'
      rw [hother j (by omega) hj' (by omega)]
      exact hfree j hj hj'
  | fetchAdd i r =>
    obtain ⟨rfl, rfl⟩ := Prod.mk.inj (Option.some.inj h)
    obtain ⟨rfl, hlt, hclaimed, hvalid⟩ := hsound
    refine ⟨hlength, ?_, ?_, fun t => ?_, fun t r w ht => ?_, halone, fun j r hj hj' => ?_,
      fun j hj hj' => ?_, trivial, ?_⟩
    · dsimp only
      omega
    · dsimp only
      omega
    · have ht := hlooks t
      cases hpc : threads t <;> rw [hpc] at ht <;> simp only [Pc.Looks] at ht ⊢
      · exact ht
      · exact ⟨ht.1, fun hw => Nat.lt_succ_of_lt (ht.2 hw)⟩
    · obtain ⟨hle, hrest⟩ := hclaims t r w ht
      have hne : w ≠ g.readIndex := by
        rintro rfl
        exact hclaimed ⟨t, r, ht⟩
      refine ⟨?_, hrest⟩
      dsimp only
      omega
    · dsimp only at hj'
      exact hfilled j r hj ⟨by omega, fun _ => by omega⟩
    · -- the slot that has become free is the one that was cleared
      dsimp only at hj hj'
      rcases Nat.lt_or_ge j (g.readIndex + 4096) with hj'' | hge
      · exact hfree j hj hj''
      · have hslot : slot j = slot g.readIndex := by
          rw [slot_eq, slot_eq]
          omega
        show (g.ring (slot j)).valid = false
        rw [hslot]
        exact hvalid
    · show g.processed = (g.accepted.take (g.readIndex + 1 + 0)).map message
      exact hprocessed
  | sleep =>
    obtain ⟨rfl, rfl⟩ := Prod.mk.inj (Option.some.inj h)
    exact ⟨hlength, hbehind, hfew, hlooks, hclaims, halone, hfilled, hfree, trivial, hprocessed⟩
  | ended => cases h

end

/-- **Every run.** -/
theorem ring {s : Sys T} (h : Reachable ((logger T).guard Fresh) s) :
    Ring s.shared s.reader s.threads := by
  refine h.invariant (I := fun s : Sys T => Ring s.shared s.reader s.threads) (fun s h0 => ?_) fun s s' _ I hn => ?_
  · obtain rfl : s = {} := h0
    refine ⟨rfl, Nat.le_refl 0, Nat.zero_le _, fun _ => trivial, fun t r w ht => ?_, fun t u r r' w ht => ?_,
      fun j r hj => ?_, fun _ _ _ => rfl, trivial, rfl⟩
    · cases ht
    · cases ht
    · cases hj
  · obtain ⟨⟨a, ha⟩, hfresh⟩ := hn
    rcases step_cases ha with ⟨t, g, pc, M, rfl⟩ | ⟨g, reader, hgo, rfl⟩
    · exact M.ring I (hfresh t)
    · exact I.read hgo

/-- **The log ring.** -/
theorem log_ring (s : Sys T) (h : Reachable ((logger T).guard Fresh) s) : Delivers s := (ring h).delivers

instance (g : Shared) : ∀ pc : Pc, Decidable (pc.Fresh g)
  | .loadRead _ w | .cas _ w => Nat.decLt g.writeIndex (w + 4294967296)
  | .idle | .loadWrite _ | .setLevel _ _ | .formatPrefix _ _ | .format _ _ | .newline _ _ | .setValid _ _
  | .testCalled _ | .setCalled _ | .storeStop _ | .join _ | .back _ => .isTrue trivial

instance [Fintype T] (s s' : Sys T) : Decidable (Fresh s s') :=
  inferInstanceAs (Decidable (∀ t, (s.threads t).Fresh s.shared))

/-- A step, if `writeIndex` has not come round. -/
def freshStep [Fintype T] (s : Sys T) : Act T → Option (Sys T) := gate step (fun s s' => decide (Fresh s s')) s

theorem fresh_next [Fintype T] (s : Sys T) (a : Act T) (s' : Sys T) (h : freshStep s a = some s') :
    ((logger T).guard Fresh).next s s' :=
  next_of_decide (M := logger T) (fun _ a _ ha => ⟨a, ha⟩) s a s' h

def hello : Record := ⟨2, [91, 93, 32], [104, 105]⟩

/-- A call of `LogAsync` that is not delayed. -/
def logging (t : Bool) : List (Act Bool) := .log t hello :: .replicate 8 (.go t true)

/-- Two threads log, and the reader has processed the first message; the second one is still being
    filled, and the third is whole. -/
theorem log_ring_two : ∃ s : Sys Bool, Reachable ((logger Bool).guard Fresh) s ∧ Delivers s ∧
    s.shared.accepted = [hello, hello, hello] ∧ s.shared.processed = [message hello] := by
  have hinit : ((logger Bool).guard Fresh).init {} := rfl
  obtain ⟨s, hr, hp⟩ := exists_reachable_of_exec hinit fresh_next
    (logging true ++ [.log false hello, .go false true, .go false true, .go false true] ++ logging true ++
      .replicate 8 .reader)
    (fun s => decide (s.shared.accepted = [hello, hello, hello] ∧ s.shared.processed = [message hello]))
    (by decide +kernel)
  exact ⟨s, hr, log_ring s hr, of_decide_eq_true hp⟩

/-! ## The counter comes round -/

/-- A thread has loaded the indices at the very beginning and comes no further; the other one is at `pc`. -/
def Stalled (pc : Pc) (reader : Reader) (n m : Nat) : Prop :=
  ∃ s : Sys Bool, Reachable ((logger Bool).guard Fresh) s ∧ s.threads true = .cas hello 0 ∧
    s.threads false = pc ∧ s.reader = reader ∧ s.shared.shouldStop = false ∧ s.shared.readIndex = n ∧
    s.shared.writeIndex = m

theorem Stalled.fresh {s : Sys Bool} {pc : Pc} {m : Nat} (htrue : s.threads true = .cas hello 0)
    (hfalse : s.threads false = pc) (hwrite : s.shared.writeIndex = m) (hm : m < 4294967296)
    (hfresh : pc.Fresh s.shared) (s' : Sys Bool) : Fresh s s' := by
  intro t
  cases t with
  | true =>
    rw [htrue]
    show s.shared.writeIndex < 0 + 4294967296
    omega
  | false =>
    rw [hfalse]
    exact hfresh

theorem Stalled.go {pc pc' : Pc} {reader : Reader} {n m m' : Nat} (h : Stalled pc reader n m)
    (hm : m < 4294967296) (hgo : ∀ g : Shared, g.readIndex = n → g.writeIndex = m → pc.Fresh g ∧
      ∃ g', pc.go g reader true = some (g', pc') ∧ g'.shouldStop = g.shouldStop ∧ g'.readIndex = n ∧
        g'.writeIndex = m') : Stalled pc' reader n m' := by
  obtain ⟨s, hr, htrue, hfalse, hreader, hstop, hread, hwrite⟩ := h
  obtain ⟨hfresh, g', hg, hstop', hread', hwrite'⟩ := hgo s.shared hread hwrite
  refine ⟨{ s with shared := g', threads := update s.threads false pc' }, .step hr ⟨⟨.go false true, ?_⟩, ?_⟩,
    ?_, ?_, hreader, hstop'.trans hstop, hread', hwrite'⟩
  · rw [step, hfalse, hreader, hg]
    rfl
  · exact fresh htrue hfalse hwrite hm hfresh _
  · show update s.threads false pc' true = _
    rw [update_of_ne (by decide)]
    exact htrue
  · show update s.threads false pc' false = _
    rw [update_self]

/-- The other thread logs a message. -/
theorem Stalled.claimed {reader : Reader} {n m : Nat} (h : Stalled .idle reader n m) (hm : m < 4294967296)
    (hroom : m < n + 4095) (hle : n ≤ m) : Stalled (.setLevel hello m) reader n (m + 1) := by
  have hlog : Stalled (.loadWrite hello) reader n m := by
    obtain ⟨s, hr, htrue, hfalse, hreader, hstop, hread, hwrite⟩ := h
    refine ⟨{ s with threads := update s.threads false (.loadWrite hello) },
      .step hr ⟨⟨.log false hello, ?_⟩, fresh htrue hfalse hwrite hm trivial _⟩, ?_, ?_, hreader, hstop, hread, hwrite⟩
    · rw [step, hfalse]
    · show update s.threads false (.loadWrite hello) true = _
      rw [update_of_ne (by decide)]
      exact htrue
    · show update s.threads false (.loadWrite hello) false = _
      rw [update_self]
  have hfull : isFull m n = false := by
    rw [← Bool.not_eq_true, isFull_iff]
    omega
  have hload : Stalled (.loadRead hello m) reader n m :=
    hlog.go hm fun g hread hwrite => ⟨trivial, g, by rw [← hwrite]; rfl, rfl, hread, hwrite⟩
  have hcas : Stalled (.cas hello m) reader n m := by
    refine hload.go hm fun g hread hwrite => ⟨?_, g, ?_, rfl, hread, hwrite⟩
    · show g.writeIndex < m + 4294967296
      omega
    · rw [Pc.go, hread, hfull]
      rfl
  refine hcas.go hm fun g hread hwrite => ⟨?_,
    { g with writeIndex := g.writeIndex + 1, accepted := g.accepted ++ [hello] }, ?_, rfl, hread,
    congrArg (· + 1) hwrite⟩
  · show g.writeIndex < m + 4294967296
    omega
  · rw [Pc.go, hwrite, beq_self_eq_true]
    rfl

theorem Stalled.log {reader : Reader} {n m : Nat} (h : Stalled .idle reader n m) (hm : m + 1 < 4294967296)
    (hroom : m < n + 4095) (hle : n ≤ m) : Stalled .idle reader n (m + 1) := by
  have hsame : ∀ {pc pc' : Pc}, Stalled pc reader n (m + 1) → (∀ g : Shared, pc.Fresh g ∧
      ∃ g', pc.go g reader true = some (g', pc') ∧ g'.shouldStop = g.shouldStop ∧
        g'.readIndex = g.readIndex ∧ g'.writeIndex = g.writeIndex) → Stalled pc' reader n (m + 1) := by
    intro pc pc' h hgo
    refine h.go hm fun g hread hwrite => ?_
    obtain ⟨hfresh, g', hg, hstop, hread', hwrite'⟩ := hgo g
    exact ⟨hfresh, g', hg, hstop, hread'.trans hread, hwrite'.trans hwrite⟩
  have hlevel : Stalled (.formatPrefix hello m) reader n (m + 1) :=
    hsame (h.claimed (by omega) hroom hle) fun g => ⟨trivial, _, rfl, rfl, rfl, rfl⟩
  have hprefix : Stalled (.format hello m) reader n (m + 1) :=
    hsame hlevel fun g => ⟨trivial, _, rfl, rfl, rfl, rfl⟩
  have hformat : Stalled (.newline hello m) reader n (m + 1) :=
    hsame hprefix fun g => ⟨trivial, _, rfl, rfl, rfl, rfl⟩
  have hnewline : Stalled (.setValid hello m) reader n (m + 1) :=
    hsame hformat fun g => ⟨trivial, _, rfl, rfl, rfl, rfl⟩
  exact hsame hnewline fun g => ⟨trivial, _, rfl, rfl, rfl, rfl⟩

/-- While nobody fills a slot, the one at `readIndex` is valid if there is a message. -/
theorem Stalled.reads {reader reader' : Reader} {n n' m : Nat} (h : Stalled .idle reader n m)
    (hm : m < 4294967296) (hgo : ∀ g : Shared, g.readIndex = n → g.shouldStop = false →
      (reader.cleared = false → ((g.ring (slot n)).valid = decide (n < m))) →
      ∃ g', reader.go g = some (g', reader') ∧ g'.shouldStop = false ∧ g'.readIndex = n' ∧
        g'.writeIndex = g.writeIndex) : Stalled .idle reader' n' m := by
  obtain ⟨s, hr, htrue, hfalse, rfl, hstop, hread, hwrite⟩ := h
  have I := ring hr
  have hnone : ¬ Claimed s.threads n := by
    rintro ⟨t, r, ht⟩
    cases t with
    | true => rw [htrue] at ht; cases ht
    | false => rw [hfalse] at ht; cases ht
  obtain ⟨g', hg, hstop', hread', hwrite'⟩ := hgo s.shared hread hstop fun hcleared => by
    rcases Nat.lt_or_ge n m with hlt | hge
    · rw [decide_eq_true hlt]
      have hrec : s.shared.accepted[n]? = some _ := List.getElem?_eq_getElem (by rw [I.length]; omega)
      rw [(I.filled n _ hrec ⟨by omega, by simp [hcleared]⟩).resolve_left hnone]
      rfl
    · rw [decide_eq_false (by omega)]
      exact I.free n (by omega) (by omega)
  refine ⟨{ s with shared := g', reader := reader' }, .step hr ⟨⟨.reader, ?_⟩, ?_⟩, htrue, hfalse, rfl, hstop',
    hread', hwrite'.trans hwrite⟩
  · rw [step, hg]
    rfl
  · exact fresh htrue hfalse hwrite hm trivial _

/-- And the reader processes it, and finds no other. -/
theorem Stalled.read {n : Nat} (h : Stalled .idle .test n (n + 1)) (hn : n + 1 < 4294967296) :
    Stalled .idle .test (n + 1) (n + 1) := by
  have hloop : Stalled .idle (.loop 0) n (n + 1) :=
    h.reads hn fun g hread hstop _ => ⟨g, by rw [Reader.go, hstop]; rfl, hstop, hread, rfl⟩
  have htest : Stalled .idle (.testValid 0 n) n (n + 1) :=
    hloop.reads hn fun g hread hstop _ => ⟨g, by rw [← hread]; rfl, hstop, hread, rfl⟩
  have hprocess : Stalled .idle (.process 0 n) n (n + 1) := by
    refine htest.reads hn fun g hread hstop hvalid => ⟨g, ?_, hstop, hread, rfl⟩
    rw [Reader.go, hvalid rfl, decide_eq_true (Nat.lt_succ_self n)]
    rfl
  have hclear : Stalled .idle (.clear 0 n) n (n + 1) :=
    hprocess.reads hn fun g hread hstop _ => ⟨_, rfl, hstop, hread, rfl⟩
  have hfetch : Stalled .idle (.fetchAdd 0 n) n (n + 1) :=
    hclear.reads hn fun g hread hstop _ => ⟨_, rfl, hstop, hread, rfl⟩
  have hnext : Stalled .idle (.loop 1) (n + 1) (n + 1) :=
    hfetch.reads hn fun g hread hstop _ => ⟨_, rfl, hstop, congrArg (· + 1) hread, rfl⟩
  have htest' : Stalled .idle (.testValid 1 (n + 1)) (n + 1) (n + 1) :=
    hnext.reads hn fun g hread hstop _ => ⟨g, by rw [← hread]; rfl, hstop, hread, rfl⟩
  have hsleep : Stalled .idle .sleep (n + 1) (n + 1) := by
    refine htest'.reads hn fun g hread hstop hvalid => ⟨g, ?_, hstop, hread, rfl⟩
    rw [Reader.go, hvalid rfl, decide_eq_false (Nat.lt_irrefl _)]
    rfl
  exact hsleep.reads hn fun g hread hstop _ => ⟨g, rfl, hstop, hread, rfl⟩

theorem Stalled.start : Stalled .idle .test 0 0 := by
  have hinit : ((logger Bool).guard Fresh).init {} := rfl
  obtain ⟨s, hr, hp⟩ := exists_reachable_of_exec hinit fresh_next
    [.log true hello, .go true true, .go true true]
    (fun s => decide (s.threads true = .cas hello 0 ∧ s.threads false = .idle ∧ s.reader = .test ∧
      s.shared.shouldStop = false ∧ s.shared.readIndex = 0 ∧ s.shared.writeIndex = 0))
    (by decide +kernel)
  exact ⟨s, hr, of_decide_eq_true hp⟩

theorem Stalled.many : ∀ n, n < 4294967296 → Stalled .idle .test n n
  | 0, _ => start
  | n + 1, hn => ((many n (by omega)).log hn (by omega) (Nat.le_refl n)).read hn

theorem Stalled.fills {n : Nat} (h : Stalled .idle .test n n) : ∀ k, k ≤ 4095 → n + k < 4294967296 →
    Stalled .idle .test n (n + k)
  | 0, _, _ => h
  | k + 1, hk, hm => (h.fills k (by omega) (by omega)).log hm (by omega) (by omega)

/-- When 2^32 messages have been logged and 4095 of them are still in the ring, the CAS of the thread
    that has waited since the beginning succeeds. -/
theorem overrun : ¬ ∀ s : Sys Bool, Reachable (logger Bool) s → Delivers s := by
  intro h
  have hfull := (Stalled.many 4294963201 (by decide)).fills 4094 (by decide) (by decide)
  obtain ⟨s, hr, htrue, -, -, -, hread, hwrite⟩ := hfull.claimed (by decide) (by decide) (by decide)
  have hnext : step s (.go true true) = some { s with
      shared := { s.shared with
        writeIndex := s.shared.writeIndex + 1, accepted := s.shared.accepted ++ [hello] }
      threads := update s.threads true (.setLevel hello 0) } := by
    rw [step, htrue, Pc.go, hwrite]
    rfl
  have hfew := (h _ (.step hr.of_guard ⟨_, hnext⟩)).few
  dsimp only at hfew
  rw [hwrite, hread] at hfew
  exact absurd hfew (by decide)

end JunCore.AsyncLog
