/-
  `JunCommon/pool/LFObjectPoolTLS.h`: a pool that gives every thread a chunk of objects of its own.

  A thread takes the objects of its chunk one after another, and `alloc_index_` says how far it is; any
  thread may free one of them, and `free_index_` counts them.  With the last object taken the thread gets
  another chunk, before it has that object; and who frees the last one returns the chunk to the chunk
  pool.  Every access to a member of a chunk is a step of its own, and so are the writes of `Set`, and
  the two calls of the chunk pool (`LFObjectPool`) and of the TLS.  Any number of threads, any interleaving.
  The indices are natural numbers, and never above `CHUNCK_SIZE`.

  What happens to the chunks is recorded, and each one has a life in the sense of `Leases`.
-/
import JunCore.Lib.Custody
import JunCore.Lib.Leases
import JunCore.Lib.Transition

set_option linter.unusedVariables false
set_option linter.unusedSectionVars false

namespace JunCore.LFObjectPoolTLS

open Transition Function Leases Custody

/-! ## The program -/

/-- `CHUNCK_SIZE` -/
def chunckSize : Nat := 500

/-- The members of the pool: the address of `chunk_pool_`, `use_ctor_` and `tls_index_`. -/
structure Members where
  chunkPool : Nat
  useCtor : Bool
  tlsIndex : Nat

/-- A chunk has copies of them; `myChunk` is the member of its `ChunkData`s. -/
structure Chunk extends Members where
  myChunk : Nat → Nat
  allocIndex : Nat
  freeIndex : Nat

/-- A chunk and a position in it. -/
abbrev Object := Nat × Nat

/-- The `n`-th write of `Set`, for the chunk `this`. -/
def Chunk.write (m : Members) (this : Nat) (x : Chunk) : Nat → Chunk
  | 0 => { x with chunkPool := m.chunkPool }
  | 1 => { x with useCtor := m.useCtor }
  | 2 => { x with tlsIndex := m.tlsIndex }
  | 3 => { x with allocIndex := 0 }
  | 4 => { x with freeIndex := 0 }
  | i + 5 => { x with myChunk := update x.myChunk i this }

/-- Where a new chunk is fetched: for the first object of a thread, or after the last one of a chunk. -/
inductive Fetch
  | first
  | last (o : Object)

/-- The next thing a thread does. -/
inductive Pc
  | idle
  -- `Alloc`
  | tlsGet
  | poolAlloc (k : Fetch)
  | callSet (k : Fetch) (c : Nat)
  | set (k : Fetch) (c : Nat) (m : Members) (n : Nat)
  | tlsSet (k : Fetch) (c : Nat)
  | loadIndex (c : Nat)
  | storeIndex (c i : Nat)
  | testCtor (o : Object)
  | construct (o : Object)
  | testIndex (o : Object)
  | ret (o : Object)
  -- `Free`
  | loadChunk (o : Object)
  | testDtor (c : Nat) (o : Object)
  | destruct (c : Nat) (o : Object)
  | count (c : Nat) (o : Object)
  | giveBack (c : Nat)

/-- The chunks created so far are those below `created`; a chunk pool is the chunks in it, the first one on
    top; `held` are the objects that `Alloc` returned and `Free` is not called for yet. -/
structure Sys (T : Type) where
  chunks : Nat → Chunk
  created : Nat
  pools : Nat → List Nat
  tls : T → Nat → Option Nat
  pcs : T → Pc
  held : List Object
  events : List (Event Nat)

/-- A thread calls `Alloc`, or `Free` for an object, or goes on with its call. -/
inductive Input
  | callAlloc
  | callFree (o : Object)
  | advance

variable {T : Type} [DecidableEq T]

def Sys.goto (s : Sys T) (t : T) (pc : Pc) : Sys T := { s with pcs := update s.pcs t pc }

def Sys.store (s : Sys T) (c : Nat) (x : Chunk) : Sys T := { s with chunks := update s.chunks c x }

/-- Whose members a chunk is fetched with: the pool's own, or those of the chunk that is used up. -/
def Sys.members (own : Members) (s : Sys T) : Fetch → Members
  | .first => own
  | .last o => (s.chunks o.1).toMembers

/-- `chunk->Alloc()` follows, or `return object`. -/
def Fetch.resume (c : Nat) : Fetch → Pc
  | .first => .loadIndex c
  | .last o => .ret o

def Sys.advance (own : Members) (s : Sys T) (t : T) : Pc → Option (Sys T)
  | .idle => none
  | .tlsGet => match s.tls t own.tlsIndex with
    | none => some (s.goto t (.poolAlloc .first))
    | some c => some (s.goto t (.loadIndex c))
  | .poolAlloc k =>
    let p := (s.members own k).chunkPool
    match s.pools p with
    | c :: rest =>
      some ({ s with pools := update s.pools p rest, events := .taken c :: s.events }.goto t (.callSet k c))
    | [] =>
      some ({ s with created := s.created + 1, events := .taken s.created :: s.events }.goto t (.callSet k s.created))
  | .callSet k c => some (s.goto t (.set k c (s.members own k) 0))
  | .set k c m n =>
    if n < chunckSize + 5 then some ((s.store c ((s.chunks c).write m c n)).goto t (.set k c m (n + 1)))
    else some (s.goto t (.tlsSet k c))
  | .tlsSet k c =>
    let slots := update (s.tls t) (s.members own k).tlsIndex (some c)
    some ({ s with tls := update s.tls t slots }.goto t (k.resume c))
  | .loadIndex c => some (s.goto t (.storeIndex c (s.chunks c).allocIndex))
  | .storeIndex c i => some ((s.store c { s.chunks c with allocIndex := i + 1 }).goto t (.testCtor (c, i)))
  | .testCtor o => some (s.goto t (if (s.chunks o.1).useCtor = true then .construct o else .testIndex o))
  | .construct o => some (s.goto t (.testIndex o))
  | .testIndex o =>
    some (s.goto t (if chunckSize = (s.chunks o.1).allocIndex then .poolAlloc (.last o) else .ret o))
  | .ret o => some ({ s with held := o :: s.held, events := .lent o.1 o.2 :: s.events }.goto t .idle)
  | .loadChunk o => some (s.goto t (.testDtor ((s.chunks o.1).myChunk o.2) o))
  | .testDtor c o => some (s.goto t (if (s.chunks c).useCtor = true then .destruct c o else .count c o))
  | .destruct c o => some (s.goto t (.count c o))
  -- `InterlockedIncrement` returns what it has written
  | .count c o =>
    let n := (s.chunks c).freeIndex + 1
    some (({ s with events := .back o.1 o.2 :: s.events }.store c { s.chunks c with freeIndex := n }).goto t
      (if chunckSize = n then .giveBack c else .idle))
  | .giveBack c =>
    let p := (s.chunks c).chunkPool
    some ({ s with pools := update s.pools p (c :: s.pools p), events := .returned c :: s.events }.goto t .idle)

def step (own : Members) (s : Sys T) (e : T × Input) : Option (Sys T) :=
  match e.2, s.pcs e.1 with
  | .callAlloc, .idle => some (s.goto e.1 .tlsGet)
  | .callFree o, .idle =>
    if o ∈ s.held then some ({ s with held := s.held.erase o }.goto e.1 (.loadChunk o)) else none
  | .advance, pc => s.advance own e.1 pc
  | _, _ => none

/-- A pool just made: its chunk pool is empty, and no thread has a chunk in its TLS. -/
structure Initial (own : Members) (s : Sys T) : Prop where
  pool : s.pools own.chunkPool = []
  tls : ∀ t, s.tls t own.tlsIndex = none
  created : s.created = 0
  pcs : ∀ t, s.pcs t = .idle
  held : s.held = []
  events : s.events = []

def pool (own : Members) : System (Sys T) where
  init := Initial own
  next s s' := ∃ e, step own s e = some s'

/-! ## What is to hold -/

/-- It is in a call of `Alloc`. -/
def Pc.allocates : Pc → Bool
  | .tlsGet | .poolAlloc _ | .callSet _ _ | .set _ _ _ _ | .tlsSet _ _ | .loadIndex _ | .storeIndex _ _
  | .testCtor _ | .construct _ | .testIndex _ | .ret _ => true
  | _ => false

/-- The object whose `Free` is not done with it yet. -/
def Pc.frees : Pc → Option Object
  | .loadChunk o | .testDtor _ o | .destruct _ o | .count _ o => some o
  | _ => none

inductive Place (T : Type)
  | unborn
  | pooled
  /-- A thread has fetched it, and sets it up. -/
  | prepared (t : T)
  | current (t : T)
  /-- Its objects are taken, and not all are back. -/
  | retired
  | returning (t : T)

inductive Spot (T : Type)
  | untouched
  /-- The `Alloc` of a thread will return it. -/
  | taking (t : T)
  | held
  | freeing (t : T)
  | back

/-- It was handed out. -/
def Spot.lent : Spot T → Bool
  | .held | .freeing _ | .back => true
  | _ => false

def Fetch.object : Fetch → Option Object
  | .first => none
  | .last o => some o

def Pc.takes : Pc → Option Object
  | .poolAlloc k | .callSet k _ | .set k _ _ _ | .tlsSet k _ => k.object
  | .testCtor o | .construct o | .testIndex o | .ret o => some o
  | _ => none

def Pc.prepares : Pc → Option Nat
  | .callSet _ c | .set _ c _ _ | .tlsSet _ c => some c
  | _ => none

def Pc.returns : Pc → Option Nat
  | .giveBack c => some c
  | _ => none

/-- A chunk in use: its index says which objects were taken, and its counter how many are back. -/
structure Chunk.Used (own : Members) (x : Chunk) (c : Nat) (l : Option Life) (spot : Nat → Spot T) : Prop where
  members : x.toMembers = own
  myChunk : ∀ i < chunckSize, x.myChunk i = c
  alloc_le : x.allocIndex ≤ chunckSize
  touched : ∀ i, spot i = .untouched ↔ x.allocIndex ≤ i
  life : ∃ lent back, l = some (.used lent back) ∧ back.length = x.freeIndex ∧
    (∀ i, i ∈ lent ↔ (spot i).lent = true) ∧ ∀ i, i ∈ back ↔ spot i = .back

/-- What a chunk is like, by its place. -/
def Place.Fits (own : Members) (x : Chunk) (c : Nat) (l : Option Life) (spot : Nat → Spot T) : Place T → Prop
  | .unborn | .pooled => l = some .pooled ∧ ∀ i, spot i = .untouched
  | .prepared _ => l = some (.used [] []) ∧ ∀ i, spot i = .untouched
  | .current _ => x.Used own c l spot ∧ x.freeIndex < chunckSize
  | .retired => x.Used own c l spot ∧ x.freeIndex < chunckSize ∧ x.allocIndex = chunckSize
  | .returning _ => x.Used own c l spot ∧ x.freeIndex = chunckSize

namespace Chunk.Used

variable {own : Members} {x : Chunk} {c : Nat} {l : Option Life} {spot : Nat → Spot T}

theorem lt_of_touched (U : x.Used own c l spot) {i : Nat} (h : spot i ≠ .untouched) : i < x.allocIndex :=
  Nat.lt_of_not_le fun hle => h ((U.touched i).mpr hle)

/-- Another spot is none that is untouched. -/
theorem touched_update (U : x.Used own c l spot) {i : Nat} {w : Spot T} (hi : spot i ≠ .untouched)
    (hw : w ≠ .untouched) (j : Nat) : update spot i w j = .untouched ↔ x.allocIndex ≤ j := by
  by_cases hj : j = i
  · subst hj
    rw [update_self]
    exact iff_of_false hw (Nat.not_le_of_lt (U.lt_of_touched hi))
  · rw [update_of_ne hj]
    exact U.touched j

/-- A list of the spots of a kind is right as long as no spot changes its kind. -/
theorem listed_same {P : Spot T → Prop} {listed : List Nat} (h : ∀ j, j ∈ listed ↔ P (spot j)) {i : Nat}
    {w : Spot T} (hw : P w ↔ P (spot i)) (j : Nat) : j ∈ listed ↔ P (update spot i w j) := by
  rw [h j]
  by_cases hj : j = i
  · rw [hj, update_self, hw]
  · rw [update_of_ne hj]

/-- A spot that becomes one of the kind is added to it. -/
theorem listed_more {P : Spot T → Prop} {listed : List Nat} (h : ∀ j, j ∈ listed ↔ P (spot j)) {i : Nat}
    {w : Spot T} (hw : P w) (j : Nat) : j ∈ i :: listed ↔ P (update spot i w j) := by
  by_cases hj : j = i
  · rw [hj, update_self]
    exact iff_of_true List.mem_cons_self hw
  · rw [update_of_ne hj, ← h j, List.mem_cons]
    exact ⟨fun hmem => hmem.resolve_left hj, .inr⟩

/-- `alloc_index_++` -/
theorem take (U : x.Used own c l spot) (t : T) (h : x.allocIndex < chunckSize) :
    ({ x with allocIndex := x.allocIndex + 1 } : Chunk).Used own c l (update spot x.allocIndex (.taking t)) where
  members := U.members
  myChunk := U.myChunk
  alloc_le := h
  touched j := by
    by_cases hj : j = x.allocIndex
    · subst hj
      rw [update_self]
      exact iff_of_false nofun (Nat.not_succ_le_self _)
    · rw [update_of_ne hj, U.touched j]
      dsimp only
      omega
  life := by
    obtain ⟨lent, back, hl, hcount, hlent, hback⟩ := U.life
    have hspot : spot x.allocIndex = .untouched := (U.touched _).mpr (Nat.le_refl _)
    refine ⟨lent, back, hl, hcount, listed_same (P := fun w => w.lent = true) hlent ?_,
      listed_same (P := (· = .back)) hback ?_⟩
    · rw [hspot]
      rfl
    · rw [hspot]
      exact iff_of_false nofun nofun

/-- `Alloc` returns an object. -/
theorem handOut (U : x.Used own c l spot) {t : T} {i : Nat} (hi : spot i = .taking t) {l' : Option Life}
    (hl' : ∀ l₀, l = some l₀ → l' = l₀.next chunckSize (.lent c i)) : x.Used own c l' (update spot i .held) where
  members := U.members
  myChunk := U.myChunk
  alloc_le := U.alloc_le
  touched := U.touched_update (by rw [hi]; nofun) nofun
  life := by
    obtain ⟨lent, back, hl, hcount, hlent, hback⟩ := U.life
    have hin : i < chunckSize := Nat.lt_of_lt_of_le (U.lt_of_touched (by rw [hi]; nofun)) U.alloc_le
    have hnew : i ∉ lent := by
      rw [hlent, hi]
      nofun
    refine ⟨i :: lent, back, (hl' _ hl).trans (Life.next_lent hin hnew), hcount,
      listed_more (P := fun w => w.lent = true) hlent rfl, listed_same (P := (· = .back)) hback ?_⟩
    rw [hi]
    exact iff_of_false nofun nofun

/-- `Free` is called for an object. -/
theorem free (U : x.Used own c l spot) (t : T) {i : Nat} (hi : spot i = .held) :
    x.Used own c l (update spot i (.freeing t)) where
  members := U.members
  myChunk := U.myChunk
  alloc_le := U.alloc_le
  touched := U.touched_update (by rw [hi]; nofun) nofun
  life := by
    obtain ⟨lent, back, hl, hcount, hlent, hback⟩ := U.life
    refine ⟨lent, back, hl, hcount, listed_same (P := fun w => w.lent = true) hlent ?_,
      listed_same (P := (· = .back)) hback ?_⟩
    · rw [hi]
      rfl
    · rw [hi]
      exact iff_of_false nofun nofun

/-- `free_index_` counts an object. -/
theorem count (U : x.Used own c l spot) {t : T} {i : Nat} (hi : spot i = .freeing t) {l' : Option Life}
    (hl' : ∀ l₀, l = some l₀ → l' = l₀.next chunckSize (.back c i)) :
    ({ x with freeIndex := x.freeIndex + 1 } : Chunk).Used own c l' (update spot i .back) where
  members := U.members
  myChunk := U.myChunk
  alloc_le := U.alloc_le
  touched := U.touched_update (by rw [hi]; nofun) nofun
  life := by
    obtain ⟨lent, back, hl, hcount, hlent, hback⟩ := U.life
    have hin : i ∈ lent := by
      rw [hlent, hi]
      rfl
    have hout : i ∉ back := by
      rw [hback, hi]
      nofun
    refine ⟨lent, i :: back, (hl' _ hl).trans (Life.next_back hin hout), congrArg (· + 1) hcount,
      listed_same (P := fun w => w.lent = true) hlent ?_, listed_more (P := (· = .back)) hback rfl⟩
    rw [hi]
    rfl

/-- When the counter is full, everything is back. -/
theorem full {events : List (Event Nat)} (U : x.Used own c (Leases.life chunckSize c events) spot)
    (h : x.freeIndex = chunckSize) : (∀ i < chunckSize, spot i = .back) ∧
      ∃ lent back, Leases.life chunckSize c events = some (.used lent back) ∧
        ∀ i < chunckSize, i ∈ lent ∧ i ∈ back := by
  obtain ⟨lent, back, hl, hcount, hlent, hback⟩ := U.life
  have hall := Lawful.all (life_lawful hl) (hcount.trans h)
  exact ⟨fun i hi => (hback i).mp (hall i hi).2, lent, back, hl, hall⟩

end Chunk.Used

/-- The first `n` writes of `Set` are done. -/
structure Chunk.Written (own : Members) (c n : Nat) (x : Chunk) : Prop where
  chunkPool : 0 < n → x.chunkPool = own.chunkPool
  useCtor : 1 < n → x.useCtor = own.useCtor
  tlsIndex : 2 < n → x.tlsIndex = own.tlsIndex
  allocIndex : 3 < n → x.allocIndex = 0
  freeIndex : 4 < n → x.freeIndex = 0
  myChunk : ∀ i, i + 5 < n → x.myChunk i = c

theorem Chunk.Written.next {own : Members} {c n : Nat} {x : Chunk} (W : x.Written own c n) :
    (x.write own c n).Written own c (n + 1) := by
  obtain ⟨hpool, hctor, htls, halloc, hfree, hmy⟩ := W
  match n with
  | 0 => exact ⟨fun _ => rfl, by omega, by omega, by omega, by omega, fun i hi => by omega⟩
  | 1 => exact ⟨fun _ => hpool Nat.one_pos, fun _ => rfl, by omega, by omega, by omega, fun i hi => by omega⟩
  | 2 => exact ⟨fun _ => hpool (by omega), fun _ => hctor (by omega), fun _ => rfl, by omega, by omega,
      fun i hi => by omega⟩
  | 3 => exact ⟨fun _ => hpool (by omega), fun _ => hctor (by omega), fun _ => htls (by omega), fun _ => rfl,
      by omega, fun i hi => by omega⟩
  | 4 => exact ⟨fun _ => hpool (by omega), fun _ => hctor (by omega), fun _ => htls (by omega),
      fun _ => halloc (by omega), fun _ => rfl, fun i hi => by omega⟩
  | n + 5 =>
    refine ⟨fun _ => hpool (by omega), fun _ => hctor (by omega), fun _ => htls (by omega),
      fun _ => halloc (by omega), fun _ => hfree (by omega), fun i hi => ?_⟩
    show update x.myChunk n c i = c
    by_cases hin : i = n
    · rw [hin, update_self]
    · rw [update_of_ne hin]
      exact hmy i (by omega)

theorem Chunk.Written.mono {own : Members} {c m n : Nat} {x : Chunk} (W : x.Written own c n) (h : m ≤ n) :
    x.Written own c m where
  chunkPool hm := W.chunkPool (by omega)
  useCtor hm := W.useCtor (by omega)
  tlsIndex hm := W.tlsIndex (by omega)
  allocIndex hm := W.allocIndex (by omega)
  freeIndex hm := W.freeIndex (by omega)
  myChunk i hi := W.myChunk i (by omega)

/-- The chunk that `Set` is done with. -/
theorem Chunk.Written.used {own : Members} {c n : Nat} {x : Chunk} (W : x.Written own c n)
    (hn : chunckSize + 5 ≤ n) {spot : Nat → Spot T} (hspot : ∀ i, spot i = .untouched) :
    x.Used own c (some (.used [] [])) spot ∧ x.allocIndex = 0 ∧ x.freeIndex = 0 := by
  have halloc := W.allocIndex (by omega)
  have hfree := W.freeIndex (by omega)
  refine ⟨⟨?_, fun i hi => W.myChunk i (by omega), ?_, fun i => ?_,
    [], [], rfl, hfree.symm, fun i => ?_, fun i => ?_⟩, halloc, hfree⟩
  · obtain ⟨⟨pool, ctor, index⟩, my, alloc, free⟩ := x
    obtain rfl : pool = own.chunkPool := W.chunkPool (by omega)
    obtain rfl : ctor = own.useCtor := W.useCtor (by omega)
    obtain rfl : index = own.tlsIndex := W.tlsIndex (by omega)
    rfl
  · rw [halloc]
    exact Nat.zero_le _
  · rw [halloc]
    exact iff_of_true (hspot i) (Nat.zero_le i)
  · rw [hspot i]
    exact iff_of_false nofun nofun
  · rw [hspot i]
    exact iff_of_false nofun nofun

/-! ## One thread -/

section

variable (own : Members) (chunks : Nat → Chunk) (place : Nat → Place T) (t : T)

/-- There is room in the thread's chunk, if it has one. -/
def Rests : Prop := ∀ c, place c = .current t → (chunks c).allocIndex < chunckSize

/-- The object was the last that was taken of the thread's chunk. -/
def Took (o : Object) : Prop := place o.1 = .current t ∧ (chunks o.1).allocIndex = o.2 + 1

/-- Why the thread fetches a chunk: it has none, or its own is used up. -/
def Fetch.Needed : Fetch → Prop
  | .first => ∀ c, place c ≠ .current t
  | .last o => Took chunks place t o ∧ o.2 + 1 = chunckSize

/-- What a thread knows at each point. -/
def Pc.Knows : Pc → Prop
  | .idle | .tlsGet | .ret _ | .loadChunk _ | .giveBack _ => Rests chunks place t
  | .poolAlloc k | .callSet k _ => k.Needed chunks place t
  | .set k c m n => k.Needed chunks place t ∧ m = own ∧ (chunks c).Written own c n
  | .tlsSet k c => k.Needed chunks place t ∧ (chunks c).Written own c (chunckSize + 5)
  | .loadIndex c => place c = .current t ∧ (chunks c).allocIndex < chunckSize
  | .storeIndex c i => place c = .current t ∧ (chunks c).allocIndex = i ∧ i < chunckSize
  | .testCtor o | .construct o | .testIndex o => Took chunks place t o
  | .testDtor c o | .destruct c o | .count c o => Rests chunks place t ∧ c = o.1

end

section

variable {own : Members} {chunks chunks' : Nat → Chunk} {place place' : Nat → Place T} {t : T}

/-- Nothing of what a thread knows has changed. -/
structure Unmoved (chunks chunks' : Nat → Chunk) (place place' : Nat → Place T) (t : T) : Prop where
  current : ∀ c, place' c = .current t ↔ place c = .current t
  index : ∀ c, place c = .current t → (chunks' c).allocIndex = (chunks c).allocIndex
  prepared : ∀ c, place c = .prepared t → chunks' c = chunks c

theorem Rests.frame (h : Rests chunks place t) (U : Unmoved chunks chunks' place place' t) :
    Rests chunks' place' t := fun c hc => by
  have hcur := (U.current c).mp hc
  rw [U.index c hcur]
  exact h c hcur

theorem Took.frame {o : Object} (h : Took chunks place t o) (U : Unmoved chunks chunks' place place' t) :
    Took chunks' place' t o := ⟨(U.current _).mpr h.1, (U.index _ h.1).trans h.2⟩

theorem Fetch.Needed.frame {k : Fetch} (h : k.Needed chunks place t) (U : Unmoved chunks chunks' place place' t) :
    k.Needed chunks' place' t := by
  cases k with
  | first => exact fun c hc => h c ((U.current c).mp hc)
  | last o => exact ⟨h.1.frame U, h.2⟩

theorem Pc.Knows.frame {pc : Pc} (h : pc.Knows own chunks place t) (U : Unmoved chunks chunks' place place' t)
    (hprep : ∀ c, pc.prepares = some c → place c = .prepared t) : pc.Knows own chunks' place' t := by
  cases pc with
  | idle => exact Rests.frame h U
  | tlsGet => exact Rests.frame h U
  | ret o => exact Rests.frame h U
  | loadChunk o => exact Rests.frame h U
  | giveBack c => exact Rests.frame h U
  | poolAlloc k => exact Fetch.Needed.frame h U
  | callSet k c => exact Fetch.Needed.frame h U
  | set k c m n =>
    refine ⟨h.1.frame U, h.2.1, ?_⟩
    rw [U.prepared c (hprep c rfl)]
    exact h.2.2
  | tlsSet k c =>
    refine ⟨h.1.frame U, ?_⟩
    rw [U.prepared c (hprep c rfl)]
    exact h.2
  | loadIndex c => exact ⟨(U.current c).mpr h.1, by rw [U.index c h.1]; exact h.2⟩
  | storeIndex c i => exact ⟨(U.current c).mpr h.1, by rw [U.index c h.1]; exact h.2⟩
  | testCtor o => exact Took.frame h U
  | construct o => exact Took.frame h U
  | testIndex o => exact Took.frame h U
  | testDtor c o => exact ⟨h.1.frame U, h.2⟩
  | destruct c o => exact ⟨h.1.frame U, h.2⟩
  | count c o => exact ⟨h.1.frame U, h.2⟩

/-- Who has a chunk that is used up has the last object of it in hand. -/
theorem Pc.Knows.last {pc : Pc} (h : pc.Knows own chunks place t) {c : Nat} (hc : place c = .current t)
    (honly : ∀ d, place d = .current t → d = c) (hfull : (chunks c).allocIndex = chunckSize) :
    ∃ o, pc.takes = some o ∧ o.1 = c ∧ o.2 + 1 = chunckSize := by
  have hrests : ¬ Rests chunks place t := fun hr => Nat.lt_irrefl _ (hfull ▸ hr c hc)
  have htook : ∀ o, Took chunks place t o → o.1 = c ∧ o.2 + 1 = chunckSize := by
    rintro o ⟨ho, hindex⟩
    obtain hsame := honly _ ho
    exact ⟨hsame, by rw [← hindex, hsame, hfull]⟩
  have hneeded : ∀ k : Fetch, k.Needed chunks place t →
      ∃ o, k.object = some o ∧ o.1 = c ∧ o.2 + 1 = chunckSize := by
    rintro (_ | o) hk
    · exact absurd hc (hk c)
    · exact ⟨o, rfl, htook o hk.1⟩
  cases pc with
  | idle => exact absurd h hrests
  | tlsGet => exact absurd h hrests
  | ret o => exact absurd h hrests
  | loadChunk o => exact absurd h hrests
  | giveBack d => exact absurd h hrests
  | poolAlloc k => exact hneeded k h
  | callSet k d => exact hneeded k h
  | set k d m n => exact hneeded k h.1
  | tlsSet k d => exact hneeded k h.1
  | loadIndex d =>
    obtain rfl := honly d h.1
    exact absurd h.2 (by omega)
  | storeIndex d i =>
    obtain rfl := honly d h.1
    exact absurd h.2 (by omega)
  | testCtor o => exact ⟨o, rfl, htook o h⟩
  | construct o => exact ⟨o, rfl, htook o h⟩
  | testIndex o => exact ⟨o, rfl, htook o h⟩
  | testDtor d o => exact absurd h.1 hrests
  | destruct d o => exact absurd h.1 hrests
  | count d o => exact absurd h.1 hrests

/-- Outside of `Alloc` there is room. -/
theorem Pc.Knows.rests {pc : Pc} (h : pc.Knows own chunks place t) (hpc : pc.allocates = false) :
    Rests chunks place t := by
  cases pc with
  | idle => exact h
  | loadChunk o => exact h
  | giveBack c => exact h
  | testDtor c o => exact h.1
  | destruct c o => exact h.1
  | count c o => exact h.1
  | tlsGet => cases hpc
  | poolAlloc k => cases hpc
  | callSet k c => cases hpc
  | set k c m n => cases hpc
  | tlsSet k c => cases hpc
  | loadIndex c => cases hpc
  | storeIndex c i => cases hpc
  | testCtor o => cases hpc
  | construct o => cases hpc
  | testIndex o => cases hpc
  | ret o => cases hpc

end

/-! ## The invariant -/

structure Inv (own : Members) (s : Sys T) (place : Nat → Place T) (spot : Object → Spot T) : Prop where
  pooled : Listed (s.pools own.chunkPool) place .pooled
  unborn : ∀ c, s.created ≤ c ↔ place c = .unborn
  current : Carried (fun t => s.tls t own.tlsIndex) place .current
  prepared : Carried (Pc.prepares ∘ s.pcs) place .prepared
  returning : Carried (Pc.returns ∘ s.pcs) place .returning
  taking : Carried (Pc.takes ∘ s.pcs) spot .taking
  freeing : Carried (Pc.frees ∘ s.pcs) spot .freeing
  held : Listed s.held spot .held
  chunk : ∀ c, (place c).Fits own (s.chunks c) c (life chunckSize c s.events) fun i => spot (c, i)
  thread : ∀ t, (s.pcs t).Knows own s.chunks place t

section

variable {spot : Object → Spot T} {w : Spot T}

theorem spot_other {c : Nat} {o : Object} (h : c ≠ o.1) :
    (fun i => update spot o w (c, i)) = fun i => spot (c, i) :=
  funext fun i => update_of_ne (fun heq => h (congrArg Prod.fst heq)) _ _

/-- Nothing of a chunk is taken any more. -/
def clear (spot : Object → Spot T) (c : Nat) (o : Object) : Spot T := if o.1 = c then .untouched else spot o

theorem spot_same (c j : Nat) : (fun i => update spot (c, j) w (c, i)) = update (fun i => spot (c, i)) j w := by
  funext i
  by_cases hi : i = j
  · rw [hi, update_self, update_self]
  · rw [update_of_ne hi, update_of_ne fun heq => hi (congrArg Prod.snd heq)]

end

/-- Which chunks there are stays. -/
theorem unborn_update {n c : Nat} {place : Nat → Place T} {w : Place T} (h : ∀ d, n ≤ d ↔ place d = .unborn)
    (hold : place c ≠ .unborn) (hnew : w ≠ .unborn) (d : Nat) : n ≤ d ↔ update place c w d = .unborn := by
  by_cases hd : d = c
  · rw [hd, update_self]
    exact iff_of_false (fun hle => hold ((h c).mp hle)) hnew
  · rw [update_of_ne hd]
    exact h d

theorem Unmoved.refl (chunks : Nat → Chunk) (place : Nat → Place T) (t : T) :
    Unmoved chunks chunks place place t :=
  ⟨fun c => Iff.rfl, fun c _ => rfl, fun c _ => rfl⟩

/-- Something happens to a chunk that the thread has nothing to do with. -/
theorem Unmoved.at {chunks chunks' : Nat → Chunk} {place place' : Nat → Place T} {t : T} (c : Nat)
    (hplace : ∀ d, d ≠ c → place' d = place d) (hchunks : ∀ d, d ≠ c → chunks' d = chunks d)
    (hcur : place c ≠ .current t) (hprep : place c ≠ .prepared t) (hnew : place' c ≠ .current t) :
    Unmoved chunks chunks' place place' t := by
  refine ⟨fun d => ?_, fun d hd => ?_, fun d hd => ?_⟩
  · by_cases hdc : d = c
    · rw [hdc]
      exact iff_of_false hnew hcur
    · rw [hplace d hdc]
  · rw [hchunks d fun hdc => hcur (hdc ▸ hd)]
  · exact hchunks d fun hdc => hprep (hdc ▸ hd)

namespace Place.Fits

variable {own : Members} {x : Chunk} {c : Nat} {l : Option Life} {spot : Nat → Spot T} {p : Place T}

/-- A chunk with an object that is taken is in use. -/
theorem in_use (F : p.Fits own x c l spot) {i : Nat} (hi : spot i ≠ .untouched) :
    (∃ u, p = .current u) ∨ p = .retired ∨ ∃ u, p = .returning u := by
  cases p with
  | unborn => exact absurd (F.2 i) hi
  | pooled => exact absurd (F.2 i) hi
  | prepared t => exact absurd (F.2 i) hi
  | current t => exact .inl ⟨t, rfl⟩
  | retired => exact .inr (.inl rfl)
  | returning t => exact .inr (.inr ⟨t, rfl⟩)

/-- It has been set up. -/
theorem used (F : p.Fits own x c l spot) {i : Nat} (hi : spot i ≠ .untouched) : x.Used own c l spot := by
  rcases F.in_use hi with ⟨u, rfl⟩ | rfl | ⟨u, rfl⟩ <;> exact F.1

theorem lives (F : p.Fits own x c l spot) : ∃ l₀, l = some l₀ := by
  have hused : x.Used own c l spot → ∃ l₀, l = some l₀ := fun U => by
    obtain ⟨lent, back, hl, -⟩ := U.life
    exact ⟨_, hl⟩
  cases p with
  | unborn => exact ⟨_, F.1⟩
  | pooled => exact ⟨_, F.1⟩
  | prepared t => exact ⟨_, F.1⟩
  | current t => exact hused F.1
  | retired => exact hused F.1
  | returning t => exact hused F.1

/-- An object moves on, and the chunk stays in use. -/
theorem move (F : p.Fits own x c l spot) {i : Nat} (hi : spot i ≠ .untouched) {l' : Option Life}
    {spot' : Nat → Spot T} (U : x.Used own c l' spot') : p.Fits own x c l' spot' := by
  rcases F.in_use hi with ⟨u, rfl⟩ | rfl | ⟨u, rfl⟩ <;> exact ⟨U, F.2⟩

end Place.Fits

namespace Inv

variable {own : Members} {s : Sys T} {place : Nat → Place T} {spot : Object → Spot T}

theorem used (I : Inv own s place spot) {o : Object} (h : spot o ≠ .untouched) :
    (s.chunks o.1).Used own o.1 (life chunckSize o.1 s.events) fun i => spot (o.1, i) := (I.chunk o.1).used h

theorem used_current (I : Inv own s place spot) {c : Nat} {t : T} (h : place c = .current t) :
    (s.chunks c).Used own c (life chunckSize c s.events) (fun i => spot (c, i)) ∧
      (s.chunks c).freeIndex < chunckSize := by
  have F := I.chunk c
  rwa [h] at F

theorem current_unique (I : Inv own s place spot) {c d : Nat} {t : T} (hc : place c = .current t)
    (hd : place d = .current t) : d = c :=
  Option.some.inj (((I.current t d).mpr hd).symm.trans ((I.current t c).mpr hc))

/-- A chunk is fetched with the pool's own members. -/
theorem members (I : Inv own s place spot) {k : Fetch} {t : T} (h : k.Needed s.chunks place t) :
    s.members own k = own := by
  cases k with
  | first => rfl
  | last o => exact (I.used_current h.1.1).1.members

/-- What the threads know, after a step of one of them. -/
theorem threads (I : Inv own s place spot) {chunks' : Nat → Chunk} {place' : Nat → Place T} {t : T} {pc : Pc}
    (hpc : pc.Knows own chunks' place' t) (hother : ∀ u, u ≠ t → Unmoved s.chunks chunks' place place' u)
    (u : T) :
    (update s.pcs t pc u).Knows own chunks' place' u := by
  by_cases hu : u = t
  · subst hu
    rw [update_self]
    exact hpc
  · rw [update_of_ne hu]
    exact (I.thread u).frame (hother u hu) fun c hc => (I.prepared u c).mp hc

/-- What the chunks are like, after something has happened to one of them. -/
theorem chunks_of (I : Inv own s place spot) (c : Nat) {place' : Nat → Place T} {chunks' : Nat → Chunk}
    {events' : List (Event Nat)} {spot' : Object → Spot T} (hplace : ∀ d, d ≠ c → place' d = place d)
    (hchunks : ∀ d, d ≠ c → chunks' d = s.chunks d)
    (hlife : ∀ d, d ≠ c → life chunckSize d events' = life chunckSize d s.events)
    (hspot : ∀ d, d ≠ c → (fun i => spot' (d, i)) = fun i => spot (d, i))
    (hc : (place' c).Fits own (chunks' c) c (life chunckSize c events') fun i => spot' (c, i)) (d : Nat) :
    (place' d).Fits own (chunks' d) d (life chunckSize d events') fun i => spot' (d, i) := by
  by_cases hd : d = c
  · subst hd
    exact hc
  · rw [hplace d hd, hchunks d hd, hlife d hd, hspot d hd]
    exact I.chunk d

/-- A step that changes what the thread knows, and nothing else. -/
theorem goto (I : Inv own s place spot) {t : T} {pc pc' : Pc} (hpc : s.pcs t = pc)
    (hprep : pc'.prepares = pc.prepares) (hret : pc'.returns = pc.returns) (htake : pc'.takes = pc.takes)
    (hfree : pc'.frees = pc.frees) (hknows : pc'.Knows own s.chunks place t) :
    Inv own (s.goto t pc') place spot where
  pooled := I.pooled
  unborn := I.unborn
  current := I.current
  prepared := I.prepared.keep (by rw [hpc, hprep])
  returning := I.returning.keep (by rw [hpc, hret])
  taking := I.taking.keep (by rw [hpc, htake])
  freeing := I.freeing.keep (by rw [hpc, hfree])
  held := I.held
  chunk := I.chunk
  thread := I.threads hknows fun u _ => Unmoved.refl _ _ u

/-- `Free` is called. -/
theorem callFree (I : Inv own s place spot) {t : T} (hpc : s.pcs t = .idle) {o : Object} (ho : o ∈ s.held) :
    Inv own ({ s with held := s.held.erase o }.goto t (.loadChunk o)) place (update spot o (.freeing t)) := by
  have hspot : spot o = .held := (I.held.mem o).mp ho
  have htouched : spot o ≠ .untouched := by rw [hspot]; nofun
  have hthread := I.thread t
  rw [hpc] at hthread
  refine ⟨I.pooled, I.unborn, I.current, I.prepared.keep (by rw [hpc]; rfl),
    I.returning.keep (by rw [hpc]; rfl), ?_, ?_, ?_, ?_, I.threads hthread fun u _ => Unmoved.refl _ _ u⟩
  · exact (I.taking.keep (by rw [hpc]; rfl)).other (by rw [hspot]; nofun) nofun
  · exact I.freeing.pick (fun _ _ h => Spot.freeing.inj h) rfl (by rw [hpc]; rfl)
      (by rw [hspot]; nofun)
  · exact I.held.erase ho nofun
  · refine I.chunks_of o.1 (fun d _ => rfl) (fun d _ => rfl) (fun d _ => rfl) (fun d hd => spot_other hd) ?_
    refine (I.chunk o.1).move htouched ?_
    rw [spot_same o.1 o.2]
    exact (I.used htouched).free t hspot

/-- A chunk is fetched, from the pool or as a new one. -/
theorem fetch (I : Inv own s place spot) {t : T} {k : Fetch} (hpc : s.pcs t = .poolAlloc k) {c created' : Nat}
    {pools' : Nat → List Nat} (hold : place c = .pooled ∨ place c = .unborn)
    (hpools : Listed (pools' own.chunkPool) (update place c (.prepared t)) .pooled)
    (hunborn : ∀ d, created' ≤ d ↔ update place c (.prepared t) d = .unborn) :
    Inv own ({ s with created := created', pools := pools', events := .taken c :: s.events }.goto t (.callSet k c))
      (update place c (.prepared t)) spot := by
  have hcur : ∀ u, place c ≠ .current u := fun u h => by
    rcases hold with hold | hold <;> rw [hold] at h <;> cases h
  have hprep : ∀ u, place c ≠ .prepared u := fun u h => by
    rcases hold with hold | hold <;> rw [hold] at h <;> cases h
  have hret : ∀ u, place c ≠ .returning u := fun u h => by
    rcases hold with hold | hold <;> rw [hold] at h <;> cases h
  have hfits : life chunckSize c s.events = some .pooled ∧ ∀ i, spot (c, i) = .untouched := by
    have F := I.chunk c
    rcases hold with hold | hold <;> rw [hold] at F <;> exact F
  have hneeded := I.thread t
  rw [hpc] at hneeded
  have hmoved : ∀ u, Unmoved s.chunks s.chunks place (update place c (.prepared t)) u := fun u =>
    .at c (fun d hd => update_of_ne hd _ _) (fun d _ => rfl) (hcur u) (hprep u) (by rw [update_self]; nofun)
  refine ⟨hpools, hunborn, I.current.other hcur nofun, ?_, ?_, I.taking.keep (by rw [hpc]; rfl),
    I.freeing.keep (by rw [hpc]; rfl), I.held, ?_,
    I.threads (Fetch.Needed.frame hneeded (hmoved t)) fun u _ => hmoved u⟩
  · exact I.prepared.pick (fun _ _ h => Place.prepared.inj h) rfl (by rw [hpc]; rfl) hprep
  · exact (I.returning.keep (by rw [hpc]; rfl)).other hret nofun
  · refine I.chunks_of c (fun d hd => update_of_ne hd _ _) (fun d _ => rfl)
      (fun d hd => life_of_ne fun h => hd h.symm) (fun d _ => rfl) ?_
    rw [update_self]
    have hlife : life chunckSize c (.taken c :: s.events) = some (.used [] []) :=
      life_of_eq (show (Event.taken c).block = c from rfl) hfits.1
    exact ⟨hlife, hfits.2⟩

/-- One write of `Set`. -/
theorem write (I : Inv own s place spot) {t : T} {k : Fetch} {c n : Nat} {m : Members}
    (hpc : s.pcs t = .set k c m n) :
    Inv own ((s.store c ((s.chunks c).write m c n)).goto t (.set k c m (n + 1))) place spot := by
  have hplace : place c = .prepared t := I.prepared.place_eq hpc rfl
  have hmoved : ∀ u, u ≠ t →
      Unmoved s.chunks (update s.chunks c ((s.chunks c).write m c n)) place place u := fun u hu =>
    .at c (fun d _ => rfl) (fun d hd => update_of_ne hd _ _) (by rw [hplace]; nofun)
      (by rw [hplace]; exact fun h => hu (Place.prepared.inj h).symm) (by rw [hplace]; nofun)
  obtain ⟨hneeded, rfl, hwritten⟩ : k.Needed s.chunks place t ∧ m = own ∧ (s.chunks c).Written own c n := by
    have hthread := I.thread t
    rwa [hpc] at hthread
  refine ⟨I.pooled, I.unborn, I.current, I.prepared.keep (by rw [hpc]; rfl), I.returning.keep (by rw [hpc]; rfl),
    I.taking.keep (by rw [hpc]; rfl), I.freeing.keep (by rw [hpc]; rfl), I.held, ?_,
    I.threads ⟨?_, rfl, ?_⟩ hmoved⟩
  · refine I.chunks_of c (fun d _ => rfl) (fun d hd => update_of_ne hd _ _) (fun d _ => rfl) (fun d _ => rfl) ?_
    have F := I.chunk c
    rw [hplace] at F ⊢
    exact F
  · cases k with
    | first => exact hneeded
    | last o =>
      refine ⟨⟨hneeded.1.1, ?_⟩, hneeded.2⟩
      have hne : o.1 ≠ c := fun h => by
        have hcur := hneeded.1.1
        rw [h, hplace] at hcur
        cases hcur
      exact (congrArg Chunk.allocIndex (update_of_ne hne _ _)).trans hneeded.1.2
  · show (update s.chunks c _ c).Written _ c (n + 1)
    rw [update_self]
    exact hwritten.next

/-- A chunk that is set up, and why. -/
theorem set_up (I : Inv own s place spot) {t : T} {k : Fetch} {c : Nat} (hpc : s.pcs t = .tlsSet k c) :
    k.Needed s.chunks place t ∧ place c = .prepared t ∧
      (s.chunks c).Used own c (life chunckSize c s.events) (fun i => spot (c, i)) ∧
      (s.chunks c).allocIndex = 0 ∧ (s.chunks c).freeIndex = 0 := by
  have hplace : place c = .prepared t := I.prepared.place_eq hpc rfl
  obtain ⟨hneeded, hwritten⟩ : k.Needed s.chunks place t ∧ (s.chunks c).Written own c (chunckSize + 5) := by
    have hthread := I.thread t
    rwa [hpc] at hthread
  have F := I.chunk c
  rw [hplace] at F
  have U := hwritten.used (Nat.le_refl _) F.2
  rw [← F.1] at U
  exact ⟨hneeded, hplace, U⟩

/-- A slot of the TLS is written. -/
theorem tls_update (tls : T → Nat → Option Nat) (t : T) (i : Nat) (c : Option Nat) :
    (fun u => update tls t (update (tls t) i c) u i) = update (fun u => tls u i) t c := by
  funext u
  by_cases hu : u = t
  · rw [hu, update_self, update_self, update_self]
  · rw [update_of_ne hu, update_of_ne hu]

/-- A thread gets its first chunk. -/
theorem installFirst (I : Inv own s place spot) {t : T} {c : Nat} (hpc : s.pcs t = .tlsSet .first c) :
    Inv own ({ s with tls := update s.tls t (update (s.tls t) own.tlsIndex (some c)) }.goto t (.loadIndex c))
      (update place c (.current t)) spot := by
  obtain ⟨hneeded, hplace, U, halloc, hfree⟩ := I.set_up hpc
  have hmoved : ∀ u, u ≠ t → Unmoved s.chunks s.chunks place (update place c (.current t)) u := fun u hu =>
    .at c (fun d hd => update_of_ne hd _ _) (fun d _ => rfl) (by rw [hplace]; nofun)
      (by rw [hplace]; exact fun h => hu (Place.prepared.inj h).symm)
      (by rw [update_self]; exact fun h => hu (Place.current.inj h).symm)
  refine ⟨I.pooled.other (by rw [hplace]; nofun) nofun,
    unborn_update I.unborn (by rw [hplace]; nofun) nofun, ?_, ?_,
    (I.returning.keep (by rw [hpc]; rfl)).other (by rw [hplace]; nofun) nofun, I.taking.keep (by rw [hpc]; rfl),
    I.freeing.keep (by rw [hpc]; rfl), I.held, ?_, I.threads ⟨update_self _ _ _, ?_⟩ hmoved⟩
  · show Carried (fun u => update s.tls t (update (s.tls t) own.tlsIndex (some c)) u own.tlsIndex) _ _
    rw [tls_update]
    refine I.current.take (fun _ _ h => Place.current.inj h) ?_ (by rw [hplace]; nofun)
    exact Option.eq_none_iff_forall_ne_some.mpr fun d hd => hneeded d ((I.current t d).mp hd)
  · exact I.prepared.drop (fun _ _ h => Place.prepared.inj h) rfl (by rw [hpc]; rfl) nofun
  · refine I.chunks_of c (fun d hd => update_of_ne hd _ _) (fun d _ => rfl) (fun d _ => rfl) (fun d _ => rfl) ?_
    rw [update_self]
    exact ⟨U, Nat.lt_of_le_of_lt (Nat.le_of_eq hfree) (by decide)⟩
  · exact Nat.lt_of_le_of_lt (Nat.le_of_eq halloc) (by decide)

/-- A thread gets another chunk for the one that is used up. -/
theorem installLast (I : Inv own s place spot) {t : T} {c : Nat} {o : Object}
    (hpc : s.pcs t = .tlsSet (.last o) c) :
    Inv own ({ s with tls := update s.tls t (update (s.tls t) own.tlsIndex (some c)) }.goto t (.ret o))
      (update (update place o.1 .retired) c (.current t)) spot := by
  obtain ⟨⟨⟨hcur, halloc⟩, hlast⟩, hplace, U, hzero, hfree⟩ := I.set_up hpc
  have hne : c ≠ o.1 := fun h => by
    rw [h, hcur] at hplace
    cases hplace
  have hplace' : update place o.1 .retired c = .prepared t := (update_of_ne hne _ _).trans hplace
  -- first the old chunk, then the new one
  have hcurrent : Carried (fun u => s.tls u own.tlsIndex) place .current := I.current
  have hparted := (hcurrent.leave (fun _ _ h => Place.current.inj h) ((hcurrent t o.1).mpr hcur)
    (show ∀ u, Place.retired ≠ .current u from nofun)).take (a := c) (fun _ _ h => Place.current.inj h)
    (update_self t _ _) (by rw [hplace']; nofun)
  rw [update_idem] at hparted
  have hmoved : ∀ u, u ≠ t →
      Unmoved s.chunks s.chunks place (update (update place o.1 .retired) c (.current t)) u := fun u hu => by
    refine ⟨fun d => ?_, fun d _ => rfl, fun d _ => rfl⟩
    by_cases hdc : d = c
    · rw [hdc, update_self, hplace]
      exact iff_of_false (fun h => hu (Place.current.inj h).symm) nofun
    · rw [update_of_ne hdc]
      by_cases hdo : d = o.1
      · rw [hdo, update_self, hcur]
        exact iff_of_false nofun fun h => hu (Place.current.inj h).symm
      · rw [update_of_ne hdo]
  have hpooled : Listed (s.pools own.chunkPool) (update place o.1 .retired) .pooled :=
    I.pooled.other (by rw [hcur]; nofun) nofun
  have hprepared : Carried (Pc.prepares ∘ s.pcs) (update place o.1 .retired) .prepared :=
    I.prepared.other (by rw [hcur]; nofun) nofun
  have hreturning : Carried (Pc.returns ∘ s.pcs) (update place o.1 .retired) .returning :=
    I.returning.other (by rw [hcur]; nofun) nofun
  have hunborn : ∀ d, s.created ≤ d ↔ update place o.1 .retired d = .unborn :=
    unborn_update I.unborn (by rw [hcur]; nofun) nofun
  refine ⟨hpooled.other (by rw [hplace']; nofun) nofun,
    unborn_update hunborn (by rw [hplace']; nofun) nofun, ?_, ?_,
    (hreturning.keep (by rw [hpc]; rfl)).other (by rw [hplace']; nofun) nofun,
    I.taking.keep (by rw [hpc]; rfl), I.freeing.keep (by rw [hpc]; rfl), I.held, fun d => ?_,
    I.threads (fun d hd => ?_) hmoved⟩
  · show Carried (fun u => update s.tls t (update (s.tls t) own.tlsIndex (some c)) u own.tlsIndex) _ _
    rw [tls_update]
    exact hparted
  · exact hprepared.drop (fun _ _ h => Place.prepared.inj h) rfl (by rw [hpc]; rfl) nofun
  · have F := I.chunk d
    by_cases hdc : d = c
    · subst hdc
      rw [update_self]
      exact ⟨U, Nat.lt_of_le_of_lt (Nat.le_of_eq hfree) (by decide)⟩
    · rw [update_of_ne hdc]
      by_cases hdo : d = o.1
      · subst hdo
        rw [hcur] at F
        rw [update_self]
        exact ⟨F.1, F.2, halloc.trans hlast⟩
      · rw [update_of_ne hdo]
        exact F
  · have hdc : d = c := Option.some.inj (((hparted t d).mpr hd).symm.trans (update_self t _ _))
    have hlt : (s.chunks c).allocIndex < chunckSize := by
      rw [hzero]
      decide
    exact hdc ▸ hlt

/-- The object that the thread's index is at. -/
theorem take (I : Inv own s place spot) {t : T} {c i : Nat} (hpc : s.pcs t = .storeIndex c i) :
    Inv own ((s.store c { s.chunks c with allocIndex := i + 1 }).goto t (.testCtor (c, i))) place
      (update spot (c, i) (.taking t)) := by
  obtain ⟨hplace, rfl, hlt⟩ : place c = .current t ∧ (s.chunks c).allocIndex = i ∧ i < chunckSize := by
    have hthread := I.thread t
    rwa [hpc] at hthread
  obtain ⟨U, hfree⟩ := I.used_current hplace
  have hspot : spot (c, (s.chunks c).allocIndex) = .untouched := (U.touched _).mpr (Nat.le_refl _)
  refine ⟨I.pooled, I.unborn, I.current, I.prepared.keep (by rw [hpc]; rfl),
    I.returning.keep (by rw [hpc]; rfl), ?_,
    (I.freeing.keep (by rw [hpc]; rfl)).other (by rw [hspot]; nofun) nofun,
    I.held.other (by rw [hspot]; nofun) nofun, ?_, I.threads ⟨hplace, ?_⟩ fun u hu => ?_⟩
  · exact I.taking.pick (fun _ _ h => Spot.taking.inj h) rfl (by rw [hpc]; rfl)
      (by rw [hspot]; nofun)
  · refine I.chunks_of c (fun d _ => rfl) (fun d hd => update_of_ne hd _ _) (fun d _ => rfl)
      (fun d hd => spot_other hd) ?_
    show (place c).Fits own (update s.chunks c _ c) c _ _
    rw [update_self, hplace, spot_same]
    exact ⟨U.take t hlt, hfree⟩
  · show (update s.chunks c _ c).allocIndex = _
    rw [update_self]
  · refine .at c (fun d _ => rfl) (fun d hd => update_of_ne hd _ _) ?_ (by rw [hplace]; nofun) ?_ <;>
    · rw [hplace]
      exact fun h => hu (Place.current.inj h).symm

/-- `Alloc` returns. -/
theorem handOut (I : Inv own s place spot) {t : T} {o : Object} (hpc : s.pcs t = .ret o) :
    Inv own ({ s with held := o :: s.held, events := .lent o.1 o.2 :: s.events }.goto t .idle) place
      (update spot o .held) := by
  have hspot : spot o = .taking t := I.taking.place_eq hpc rfl
  have htouched : spot o ≠ .untouched := by rw [hspot]; nofun
  have hrests := I.thread t
  rw [hpc] at hrests
  refine ⟨I.pooled, I.unborn, I.current, I.prepared.keep (by rw [hpc]; rfl),
    I.returning.keep (by rw [hpc]; rfl), ?_,
    (I.freeing.keep (by rw [hpc]; rfl)).other (by rw [hspot]; nofun) nofun,
    I.held.push (by rw [hspot]; nofun), ?_,
    I.threads hrests fun u _ => Unmoved.refl _ _ u⟩
  · exact I.taking.drop (fun _ _ h => Spot.taking.inj h) rfl (by rw [hpc]; rfl) nofun
  · refine I.chunks_of o.1 (fun d _ => rfl) (fun d _ => rfl) (fun d hd => life_of_ne fun h => hd h.symm)
      (fun d hd => spot_other hd) ?_
    refine (I.chunk o.1).move htouched ?_
    rw [spot_same o.1 o.2]
    exact (I.used htouched).handOut hspot fun l hl => life_of_eq rfl hl

/-- A thread that is about to count an object, and the chunk when it is counted. -/
theorem counts (I : Inv own s place spot) {t : T} {c : Nat} {o : Object} (hpc : s.pcs t = .count c o) :
    c = o.1 ∧ spot o = .freeing t ∧ Rests s.chunks place t ∧
      ({ s.chunks c with freeIndex := (s.chunks c).freeIndex + 1 } : Chunk).Used own c
        (life chunckSize c (.back o.1 o.2 :: s.events)) fun i => update spot o .back (c, i) := by
  have hspot : spot o = .freeing t := I.freeing.place_eq hpc rfl
  obtain ⟨hrests, rfl⟩ : Rests s.chunks place t ∧ c = o.1 := by
    have hthread := I.thread t
    rwa [hpc] at hthread
  refine ⟨rfl, hspot, hrests, ?_⟩
  rw [spot_same o.1 o.2]
  exact (I.used (by rw [hspot]; nofun)).count hspot fun l hl => life_of_eq rfl hl

/-- A chunk that is about to be returned lacks no object. -/
theorem returning_back (I : Inv own s place spot) {o : Object} {t : T} (h : place o.1 = .returning t)
    (ho : o.2 < chunckSize) : spot o = .back := by
  have F := I.chunk o.1
  rw [h] at F
  exact (F.1.full F.2).1 o.2 ho

theorem not_prepared (I : Inv own s place spot) {o : Object} (h : spot o ≠ .untouched) (t : T) :
    place o.1 ≠ .prepared t := fun hplace => by
  have F := I.chunk o.1
  rw [hplace] at F
  exact h (F.2 o.2)

theorem lt_size (I : Inv own s place spot) {o : Object} (h : spot o ≠ .untouched) : o.2 < chunckSize :=
  Nat.lt_of_lt_of_le ((I.used h).lt_of_touched h) (I.used h).alloc_le

/-- The counter that `Free` increments, when more objects are to come back. -/
theorem count (I : Inv own s place spot) {t : T} {c : Nat} {o : Object} (hpc : s.pcs t = .count c o)
    (hn : (s.chunks c).freeIndex + 1 ≠ chunckSize) :
    Inv own (({ s with events := .back o.1 o.2 :: s.events }.store c
      { s.chunks c with freeIndex := (s.chunks c).freeIndex + 1 }).goto t .idle) place (update spot o .back) := by
  obtain ⟨rfl, hspot, hrests, U⟩ := I.counts hpc
  have htouched : spot o ≠ .untouched := by rw [hspot]; nofun
  have hmoved : ∀ u, Unmoved s.chunks
      (update s.chunks o.1 { s.chunks o.1 with freeIndex := (s.chunks o.1).freeIndex + 1 })
      place place u := fun u => by
    refine ⟨fun d => Iff.rfl, fun d _ => ?_, fun d hd => update_of_ne (fun h => ?_) _ _⟩
    · by_cases hd : d = o.1
      · rw [hd, update_self]
      · rw [update_of_ne hd]
    · exact I.not_prepared htouched u (h ▸ hd)
  refine ⟨I.pooled, I.unborn, I.current, I.prepared.keep (by rw [hpc]; rfl), I.returning.keep (by rw [hpc]; rfl),
    (I.taking.keep (by rw [hpc]; rfl)).other (by rw [hspot]; nofun) nofun, ?_,
    I.held.other (by rw [hspot]; nofun) nofun, ?_, I.threads (hrests.frame (hmoved t)) fun u _ => hmoved u⟩
  · exact I.freeing.drop (fun _ _ h => Spot.freeing.inj h) rfl (by rw [hpc]; rfl) nofun
  · refine I.chunks_of o.1 (fun d _ => rfl) (fun d hd => update_of_ne hd _ _)
      (fun d hd => life_of_ne (e := .back o.1 o.2) fun h => hd h.symm) (fun d hd => spot_other hd) ?_
    show (place o.1).Fits own (update s.chunks o.1 _ o.1) o.1 _ _
    rw [update_self]
    have F := I.chunk o.1
    rcases F.in_use htouched with ⟨u, hplace⟩ | hplace | ⟨u, hplace⟩
    · rw [hplace] at F ⊢
      exact ⟨U, Nat.lt_of_le_of_ne F.2 hn⟩
    · rw [hplace] at F ⊢
      exact ⟨U, Nat.lt_of_le_of_ne F.2.1 hn, F.2.2⟩
    · rw [I.returning_back hplace (I.lt_size htouched)] at hspot
      cases hspot

/-- The last object comes back to a chunk that its thread has done with: the thread had the object of the last
    position in hand before that. -/
theorem retired_of_last (I : Inv own s place spot) {t : T} {c : Nat} {o : Object} (hpc : s.pcs t = .count c o)
    (hn : (s.chunks c).freeIndex + 1 = chunckSize) : place c = .retired := by
  obtain ⟨rfl, hspot, hrests, U⟩ := I.counts hpc
  have htouched : spot o ≠ .untouched := by rw [hspot]; nofun
  have hall := (U.full hn).1
  rcases (I.chunk o.1).in_use htouched with ⟨u, hplace⟩ | hplace | ⟨u, hplace⟩
  · -- a chunk of a thread would be full, with its last object in the thread's hand
    have hpos : chunckSize - 1 < chunckSize := by decide
    have hlast := U.lt_of_touched (i := chunckSize - 1) (by rw [hall _ hpos]; nofun)
    have hfull : (s.chunks o.1).allocIndex = chunckSize :=
      Nat.le_antisymm U.alloc_le (show chunckSize ≤ (s.chunks o.1).allocIndex from by dsimp only at hlast; omega)
    obtain ⟨o', htakes, ho, hi⟩ := (I.thread u).last hplace (fun d hd => I.current_unique hplace hd) hfull
    have htaking : spot o' = .taking u := (I.taking u o').mp htakes
    have hback := hall o'.2 (by omega)
    have hne : o' ≠ o := fun h => by
      rw [h, hspot] at htaking
      cases htaking
    rw [← ho, update_of_ne hne, htaking] at hback
    cases hback
  · exact hplace
  · rw [I.returning_back hplace (I.lt_size htouched)] at hspot
    cases hspot

/-- The last object is back. -/
theorem countLast (I : Inv own s place spot) {t : T} {c : Nat} {o : Object} (hpc : s.pcs t = .count c o)
    (hn : (s.chunks c).freeIndex + 1 = chunckSize) :
    Inv own (({ s with events := .back o.1 o.2 :: s.events }.store c
      { s.chunks c with freeIndex := (s.chunks c).freeIndex + 1 }).goto t (.giveBack c))
      (update place c (.returning t)) (update spot o .back) := by
  obtain ⟨rfl, hspot, hrests, U⟩ := I.counts hpc
  have htouched : spot o ≠ .untouched := by rw [hspot]; nofun
  have hretired := I.retired_of_last hpc hn
  have hmoved : ∀ u, Unmoved s.chunks
      (update s.chunks o.1 { s.chunks o.1 with freeIndex := (s.chunks o.1).freeIndex + 1 }) place
      (update place o.1 (.returning t)) u := fun u =>
    .at o.1 (fun d hd => update_of_ne hd _ _) (fun d hd => update_of_ne hd _ _) (by rw [hretired]; nofun)
      (by rw [hretired]; nofun) (by rw [update_self]; nofun)
  refine ⟨I.pooled.other (by rw [hretired]; nofun) nofun, unborn_update I.unborn (by rw [hretired]; nofun) nofun,
    I.current.other (by rw [hretired]; nofun) nofun,
    (I.prepared.keep (by rw [hpc]; rfl)).other (by rw [hretired]; nofun) nofun, ?_,
    (I.taking.keep (by rw [hpc]; rfl)).other (by rw [hspot]; nofun) nofun, ?_,
    I.held.other (by rw [hspot]; nofun) nofun, ?_, I.threads (Rests.frame hrests (hmoved t)) fun u _ => hmoved u⟩
  · exact I.returning.pick (fun _ _ h => Place.returning.inj h) rfl (by rw [hpc]; rfl)
      (by rw [hretired]; nofun)
  · exact I.freeing.drop (fun _ _ h => Spot.freeing.inj h) rfl (by rw [hpc]; rfl) nofun
  · refine I.chunks_of o.1 (fun d hd => update_of_ne hd _ _) (fun d hd => update_of_ne hd _ _)
      (fun d hd => life_of_ne (e := .back o.1 o.2) fun h => hd h.symm) (fun d hd => spot_other hd) ?_
    show (update place o.1 _ o.1).Fits own (update s.chunks o.1 _ o.1) o.1 _ _
    rw [update_self, update_self]
    exact ⟨U, hn⟩

/-- The chunk pool gets a chunk back. -/
theorem giveBack (I : Inv own s place spot) {t : T} {c : Nat} (hpc : s.pcs t = .giveBack c)
    {pools' : Nat → List Nat} (hpools : pools' own.chunkPool = c :: s.pools own.chunkPool) :
    Inv own ({ s with pools := pools', events := .returned c :: s.events }.goto t .idle) (update place c .pooled)
      (clear spot c) := by
  have hplace : place c = .returning t := I.returning.place_eq hpc rfl
  obtain ⟨U, hcount⟩ : (s.chunks c).Used own c (life chunckSize c s.events) (fun i => spot (c, i)) ∧
      (s.chunks c).freeIndex = chunckSize := by
    have F := I.chunk c
    rwa [hplace] at F
  obtain ⟨hback, lent, back, hlife, hall⟩ := U.full hcount
  have hrests := I.thread t
  rw [hpc] at hrests
  -- nothing of the chunk is in anybody's hand
  have hnone : ∀ o : Object, o.1 = c → spot o = .back ∨ spot o = .untouched := by
    rintro ⟨d, i⟩ hd
    obtain rfl : d = c := hd
    by_cases hi : i < chunckSize
    · exact .inl (hback i hi)
    · exact .inr ((U.touched i).mpr (U.alloc_le.trans (Nat.le_of_not_lt hi)))
  have hspot : ∀ (o : Object) (w : Spot T), w ≠ .back → w ≠ .untouched →
      (clear spot c o = w ↔ spot o = w) := by
    intro o w hwb hwu
    unfold clear
    by_cases ho : o.1 = c
    · rw [if_pos ho]
      refine iff_of_false (fun h => hwu h.symm) fun h => ?_
      rcases hnone o ho with hs | hs
      · exact hwb (h.symm.trans hs)
      · exact hwu (h.symm.trans hs)
    · rw [if_neg ho]
  have hmoved : ∀ u, Unmoved s.chunks s.chunks place (update place c .pooled) u := fun u =>
    .at c (fun d hd => update_of_ne hd _ _) (fun d _ => rfl) (by rw [hplace]; nofun) (by rw [hplace]; nofun)
      (by rw [update_self]; nofun)
  refine ⟨?_, unborn_update I.unborn (by rw [hplace]; nofun) nofun, I.current.other (by rw [hplace]; nofun) nofun,
    (I.prepared.keep (by rw [hpc]; rfl)).other (by rw [hplace]; nofun) nofun, ?_, ?_, ?_, ?_, ?_,
    I.threads (Rests.frame hrests (hmoved t)) fun u _ => hmoved u⟩
  · show Listed (pools' own.chunkPool) _ _
    rw [hpools]
    exact I.pooled.push (by rw [hplace]; nofun)
  · exact I.returning.drop (fun _ _ h => Place.returning.inj h) rfl (by rw [hpc]; rfl) nofun
  · exact (I.taking.keep (by rw [hpc]; rfl)).congr fun o u => hspot o _ nofun nofun
  · exact (I.freeing.keep (by rw [hpc]; rfl)).congr fun o u => hspot o _ nofun nofun
  · exact I.held.congr fun o => hspot o _ nofun nofun
  · refine I.chunks_of c (fun d hd => update_of_ne hd _ _) (fun d _ => rfl)
      (fun d hd => life_of_ne (e := .returned c) fun h => hd h.symm) (fun d hd => funext fun i => if_neg hd) ?_
    rw [update_self]
    have hnext : life chunckSize c (.returned c :: s.events) = some .pooled :=
      (life_of_eq (show (Event.returned c).block = c from rfl) hlife).trans (Life.next_returned hall)
    exact ⟨hnext, fun i => if_pos rfl⟩

theorem advance (I : Inv own s place spot) {t : T} {pc : Pc} (hpc : s.pcs t = pc) {s' : Sys T}
    (h : s.advance own t pc = some s') : ∃ place' spot', Inv own s' place' spot' := by
  have hknows := I.thread t
  rw [hpc] at hknows
  cases pc with
  | idle => cases h
  | tlsGet =>
    rw [Sys.advance] at h
    split at h
    · rename_i htls
      obtain rfl := Option.some.inj h
      refine ⟨place, spot, I.goto hpc rfl rfl rfl rfl fun c hc => ?_⟩
      have hsome : s.tls t own.tlsIndex = some c := (I.current t c).mpr hc
      rw [htls] at hsome
      cases hsome
    · rename_i c htls
      obtain rfl := Option.some.inj h
      have hc := (I.current t c).mp htls
      exact ⟨place, spot, I.goto hpc rfl rfl rfl rfl ⟨hc, hknows c hc⟩⟩
  | poolAlloc k =>
    rw [Sys.advance, I.members hknows] at h
    split at h
    · rename_i c rest hpool
      obtain rfl := Option.some.inj h
      have hlisted := I.pooled
      rw [hpool] at hlisted
      have hplace : place c = .pooled := (hlisted.mem c).mp List.mem_cons_self
      refine ⟨_, spot, I.fetch hpc (.inl hplace) ?_ (unborn_update I.unborn (by rw [hplace]; nofun) nofun)⟩
      rw [update_self]
      have hrest : Listed ((c :: rest).erase c) (update place c (.prepared t)) .pooled :=
        hlisted.erase List.mem_cons_self nofun
      rwa [List.erase_cons_head] at hrest
    · obtain rfl := Option.some.inj h
      have hplace : place s.created = .unborn := (I.unborn _).mp (Nat.le_refl _)
      refine ⟨_, spot, I.fetch hpc (.inr hplace) (I.pooled.other (by rw [hplace]; nofun) nofun) fun d => ?_⟩
      by_cases hd : d = s.created
      · rw [hd, update_self]
        exact iff_of_false (Nat.not_succ_le_self _) nofun
      · rw [update_of_ne hd, ← I.unborn d]
        omega
  | callSet k c =>
    obtain rfl := Option.some.inj h
    refine ⟨place, spot, I.goto hpc rfl rfl rfl rfl ⟨hknows, I.members hknows, ?_⟩⟩
    exact ⟨by omega, by omega, by omega, by omega, by omega, fun i hi => by omega⟩
  | set k c m n =>
    rw [Sys.advance] at h
    split at h
    · obtain rfl := Option.some.inj h
      exact ⟨place, spot, I.write hpc⟩
    · rename_i hn
      obtain rfl := Option.some.inj h
      exact ⟨place, spot, I.goto hpc rfl rfl rfl rfl ⟨hknows.1, hknows.2.2.mono (Nat.le_of_not_lt hn)⟩⟩
  | tlsSet k c =>
    rw [Sys.advance, I.members hknows.1] at h
    obtain rfl := Option.some.inj h
    cases k with
    | first => exact ⟨_, spot, I.installFirst hpc⟩
    | last o => exact ⟨_, spot, I.installLast hpc⟩
  | loadIndex c =>
    obtain rfl := Option.some.inj h
    exact ⟨place, spot, I.goto hpc rfl rfl rfl rfl ⟨hknows.1, rfl, hknows.2⟩⟩
  | storeIndex c i =>
    obtain rfl := Option.some.inj h
    exact ⟨place, _, I.take hpc⟩
  | testCtor o =>
    rw [Sys.advance] at h
    split at h
    · obtain rfl := Option.some.inj h
      exact ⟨place, spot, I.goto hpc rfl rfl rfl rfl hknows⟩
    · obtain rfl := Option.some.inj h
      exact ⟨place, spot, I.goto hpc rfl rfl rfl rfl hknows⟩
  | construct o =>
    obtain rfl := Option.some.inj h
    exact ⟨place, spot, I.goto hpc rfl rfl rfl rfl hknows⟩
  | testIndex o =>
    rw [Sys.advance] at h
    split at h
    · rename_i hfull
      obtain rfl := Option.some.inj h
      exact ⟨place, spot, I.goto hpc rfl rfl rfl rfl ⟨hknows, hknows.2.symm.trans hfull.symm⟩⟩
    · rename_i hroom
      obtain rfl := Option.some.inj h
      refine ⟨place, spot, I.goto hpc rfl rfl rfl rfl fun c hc => ?_⟩
      obtain rfl := I.current_unique hknows.1 hc
      exact Nat.lt_of_le_of_ne (I.used_current hc).1.alloc_le fun heq => hroom heq.symm
  | ret o =>
    obtain rfl := Option.some.inj h
    exact ⟨place, _, I.handOut hpc⟩
  | loadChunk o =>
    obtain rfl := Option.some.inj h
    have hspot : spot o = .freeing t := I.freeing.place_eq hpc rfl
    have htouched : spot o ≠ .untouched := by rw [hspot]; nofun
    exact ⟨place, spot, I.goto hpc rfl rfl rfl rfl ⟨hknows, (I.used htouched).myChunk o.2 (I.lt_size htouched)⟩⟩
  | testDtor c o =>
    rw [Sys.advance] at h
    split at h
    · obtain rfl := Option.some.inj h
      exact ⟨place, spot, I.goto hpc rfl rfl rfl rfl hknows⟩
    · obtain rfl := Option.some.inj h
      exact ⟨place, spot, I.goto hpc rfl rfl rfl rfl hknows⟩
  | destruct c o =>
    obtain rfl := Option.some.inj h
    exact ⟨place, spot, I.goto hpc rfl rfl rfl rfl hknows⟩
  | count c o =>
    rw [Sys.advance] at h
    dsimp only at h
    split at h
    · rename_i hn
      obtain rfl := Option.some.inj h
      exact ⟨_, _, I.countLast hpc hn.symm⟩
    · rename_i hn
      obtain rfl := Option.some.inj h
      exact ⟨place, _, I.count hpc fun heq => hn heq.symm⟩
  | giveBack c =>
    obtain rfl := Option.some.inj h
    have hplace : place c = .returning t := I.returning.place_eq hpc rfl
    have F := I.chunk c
    rw [hplace] at F
    have hpool : (s.chunks c).chunkPool = own.chunkPool := congrArg Members.chunkPool F.1.members
    refine ⟨_, _, I.giveBack hpc ?_⟩
    rw [hpool, update_self]

theorem step (I : Inv own s place spot) {e : T × Input} {s' : Sys T}
    (h : LFObjectPoolTLS.step own s e = some s') :
    ∃ place' spot', Inv own s' place' spot' := by
  obtain ⟨t, input⟩ := e
  unfold LFObjectPoolTLS.step at h
  dsimp only at h
  split at h
  · rename_i hpc
    obtain rfl := Option.some.inj h
    have hknows := I.thread t
    rw [hpc] at hknows
    exact ⟨place, spot, I.goto hpc rfl rfl rfl rfl hknows⟩
  · rename_i o hpc
    split at h
    · rename_i ho
      obtain rfl := Option.some.inj h
      exact ⟨place, _, I.callFree hpc ho⟩
    · cases h
  · exact I.advance rfl h
  · cases h

end Inv

end JunCore.LFObjectPoolTLS
