/-
  What a session hands on.

  A task counts for what it holds: references, an `OverlappedEx`, the right to send, the duty to
  receive, the destructor.  A step may hand these on, to a task, to an operation in the system or to
  a member of the session, but it does not lose or double them (`run_effect`), and from that
  `conserved_step` makes a law of the runs.

  The right to send is what `send_flag_` stands for: whoever sets it has the right, then the
  `WSASend`, then the worker that handles its completion and clears the flag.  The duty to receive
  has no flag: it passes from what connects the session to its first receive, to the handler of that
  one, to the next.  Either can end with nobody to have it, which `lostSend` and `lostRecv` count.
-/
import JunCore.Lib.Counting
import JunCore.Network.SessionStart

set_option linter.unusedVariables false
set_option linter.unusedSectionVars false

namespace JunCore.SessionSteps

open Function Transition Network Counting

/-! ## Weights -/

/-- The weight of a task, if there is one. -/
def weigh {A M : Type} [Zero M] (w : A → M) : Option A → M
  | some a => w a
  | none => 0

theorem weigh_resume {P M : Type} [AddCommMonoid M] {w : Task → M} {v : P → M} {k : M}
    {inside : P → Task} {after : Task} (hinside : ∀ pc, w (inside pc) = v pc + k)
    (hafter : w after = k) (o : Option P) : w (resume inside after o) = weigh v o + k := by
  cases o with
  | none =>
    show w after = 0 + k
    rw [hafter, zero_add]
  | some pc => exact hinside pc

section Sums

variable {T M : Type} [Fintype T] [AddCommMonoid M]

/-- What all tasks weigh. -/
def Sys.sum (s : Sys T) (w : Task → M) : M := ∑ t, weigh w (s.tasks t)

theorem Sys.apply_sum {N : Type} [AddCommMonoid N] (f : M →+ N) (s : Sys T) (w : Task → M) :
    f (s.sum w) = s.sum fun task => f (w task) := by
  unfold Sys.sum
  rw [map_sum]
  refine Finset.sum_congr rfl fun t _ => ?_
  cases s.tasks t with
  | none => exact map_zero f
  | some task => rfl

theorem Sys.le_sum (s : Sys T) (t : T) (w : Task → Nat) : weigh w (s.tasks t) ≤ s.sum w :=
  le_total (weigh w) s.tasks t

variable [DecidableEq T]

theorem Sys.sum_after (s : Sys T) (t : T) (r : Cell × Option Task) (w : Task → M) :
    (s.after t r).sum w + weigh w (s.tasks t) = s.sum w + weigh w r.2 :=
  sum_update (weigh w) s.tasks t r.2

theorem Sys.sum_new (e : Engine) (buf : RingBuffer) (t : T) (w : Task → M) :
    (Sys.new e buf t).sum w = w (.post e .newOverlapped) := by
  have h := sum_update (weigh w) (fun _ : T => none) t (some (.post e .newOverlapped))
  have hzero : ∑ u : T, weigh w ((fun _ : T => none) u) = 0 := Finset.sum_eq_zero fun _ _ => rfl
  rw [hzero, zero_add] at h
  exact (add_zero _).symm.trans h

end Sums

variable {T : Type} [DecidableEq T] [Fintype T]

/-- A step that keeps the balance keeps the law that `F` of the session is `G` of it and what the
    tasks weigh. -/
theorem conserved_step {M : Type} [AddCancelCommMonoid M] (w : Task → M) (F G : Cell → M)
    {s : Sys T} (h : F s.cell = G s.cell + s.sum w) {t : T} {r : Cell × Option Task}
    (hstep : F r.1 + (G s.cell + weigh w (s.tasks t)) = F s.cell + (G r.1 + weigh w r.2)) :
    F r.1 = G r.1 + (s.after t r).sum w := by
  have hsum := s.sum_after t r w
  refine add_right_cancel (b := G s.cell + weigh w (s.tasks t)) ?_
  rw [hstep, h]
  calc G s.cell + s.sum w + (G r.1 + weigh w r.2)
      = G s.cell + G r.1 + (s.sum w + weigh w r.2) := by abel
    _ = G s.cell + G r.1 + ((s.after t r).sum w + weigh w (s.tasks t)) := by rw [hsum]
    _ = G r.1 + (s.after t r).sum w + (G s.cell + weigh w (s.tasks t)) := by abel

/-- **The rule of conservation**: such a law holds in every run, if it does at first. -/
theorem conserved {M : Type} [AddCancelCommMonoid M] (w : Task → M) (F G : Cell → M)
    (hnew : ∀ e buf, F (.new e buf) = G (.new e buf) + w (.post e .newOverlapped))
    (hdoes : ∀ (s : Sys T) t r, Reachable system s → Does s.cell (s.tasks t) r →
      F r.1 + (G s.cell + weigh w (s.tasks t)) = F s.cell + (G r.1 + weigh w r.2))
    (hcomplete : ∀ (c : Cell) op chunk, op ∈ c.ops → op.done = none →
      F (c.complete op chunk) = F c ∧ G (c.complete op chunk) = G c)
    {s : Sys T} (h : Reachable system s) : F s.cell = G s.cell + s.sum w := by
  apply h.invariant (I := fun s => F s.cell = G s.cell + s.sum w)
  · rintro _ ⟨e, mem, b, hb, t, rfl⟩
    rw [Sys.sum_new]
    exact hnew e _
  · intro s s' hr ih hnext
    rcases step_does hnext with ⟨t, r, hdoes', rfl⟩ | ⟨op, chunk, hmem, hdone, hroom, rfl⟩
    · exact conserved_step w F G ih (hdoes s t r hr hdoes')
    · obtain ⟨hF, hG⟩ := hcomplete s.cell op chunk hmem hdone
      show F (s.cell.complete op chunk) = G (s.cell.complete op chunk) + s.sum w
      rw [hF, hG]
      exact ih

/-! ## What a task holds -/

/-- References, `OverlappedEx`, the right to send, the duty to receive, and the destructor. -/
abbrev Hold := Nat × Multiset Nat × Nat × Nat × Nat

/-- From its CAS on, the thread that has set `send_flag_` has the right to send.  A call of the system
    that failed at once still holds its `OverlappedEx`. -/
def SendPc.hold : SendPc → Hold
  | .cas | .reloadCount | .cancel => 0
  | .postZero id _ => (1, {id}, 1, 0, 0)
  | _ => (0, 0, 1, 0, 0)

def RecvAsyncPc.hold : RecvAsyncPc → Hold
  | .postZero id _ => (1, {id}, 0, 1, 0)
  | _ => (0, 0, 0, 1, 0)

/-- A worker holds the `OverlappedEx` of the completion it has taken; that of a send, the right to
    send until it clears the flag.  Until there is a receive, what leads to one has the duty;
    afterwards the receive has it, and then its handler. -/
def Task.hold : Task → Hold
  | .post _ .newOverlapped => (1, 0, 0, 1, 0)
  | .post _ (.call id) | .post _ (.failed id) => (2, {id}, 0, 1, 0)
  | .sendPacket (.sendAsync pc) => pc.hold + (1, 0, 0, 0, 0)
  | .sendPacket _ | .disconnect _ | .unlock => (1, 0, 0, 0, 0)
  | .recv id (.recvAsync pc) | .accept id (.recvAsync pc) | .connect id (.recvAsync pc) =>
    pc.hold + (1, {id}, 0, 0, 0)
  | .connect id .callback | .connect id .inCallback => (1, {id}, 0, 0, 0)
  | .recv id _ | .accept id _ | .connect id _ => (1, {id}, 0, 1, 0)
  | .send id (.sendAsync pc) => pc.hold + (1, {id}, 0, 0, 0)
  | .send id .loadPending | .send id .loadCount => (1, {id}, 0, 0, 0)
  | .send id _ => (1, {id}, 1, 0, 0)
  | .delete id lost => (1, {id}, lostSends lost, lostRecvs lost, 0)
  | .destroy _ => (0, 0, 0, 0, 1)

/-- And what an operation in the system does. -/
def Op.hold (op : Op) : Hold :=
  (1, {op.id}, lostSends (some op.operation), lostRecvs (some op.operation), 0)

/-- The part of a session that this is about. -/
structure Book where
  refs : Nat
  ops : List Op
  overlappeds : Nat
  deleted : List Nat
  sendFlag : Bool
  lostSend : Nat
  lostRecv : Nat
  destroyed : Nat

def Cell.book (c : Cell) : Book where
  refs := c.refs
  ops := c.ops
  overlappeds := c.overlappeds
  deleted := c.deleted
  sendFlag := c.sendFlag
  lostSend := c.lostSend
  lostRecv := c.lostRecv
  destroyed := c.destroyed

/-- What there is to be held: references, `OverlappedEx`, a right to send while the flag is set, one
    duty to receive, one life. -/
def Book.credit (k : Book) : Hold :=
  (k.refs, Multiset.range k.overlappeds, k.sendFlag.toNat, 1, 1)

/-- What no task holds: the operations in the system, the `OverlappedEx` that have been deleted,
    what was given up, and the life of a session that is referenced or gone. -/
def Book.debit (k : Book) : Hold :=
  (k.ops.map Op.hold).sum + (0, (↑k.deleted : Multiset Nat), k.lostSend, k.lostRecv,
    (if 0 < k.refs then 1 else 0) + k.destroyed)

/-- **What a step does with what is held**: by the thread that takes it `a` before, `b` after. -/
inductive Effect (k : Book) : Book → Hold → Hold → Prop
  | keep {a : Hold} : Effect k k a a
  /-- a `weak_ptr` is locked -/
  | lock {a : Hold} (hrefs : 0 < k.refs) :
      Effect k { k with refs := k.refs + 1 } a ((1, 0, 0, 0, 0) + a)
  /-- a worker takes a completion -/
  | take {a : Hold} {op : Op} (hmem : op ∈ k.ops) :
      Effect k { k with ops := k.ops.erase op } a (op.hold + a)
  /-- `new OverlappedEx` -/
  | create {a : Hold} (hrefs : 0 < k.refs) :
      Effect k { k with refs := k.refs + 1, overlappeds := k.overlappeds + 1 } a
        ((1, {k.overlappeds}, 0, 0, 0) + a)
  /-- the system takes an operation -/
  | submit {a : Hold} (op : Op) : Effect k { k with ops := op :: k.ops } (op.hold + a) a
  /-- `new OverlappedEx`, and the system takes the operation -/
  | start {a : Hold} (op : Op) (hrefs : 0 < k.refs) (hid : op.id = k.overlappeds) :
      Effect k
        { k with refs := k.refs + 1, ops := op :: k.ops, overlappeds := k.overlappeds + 1 }
        ((0, 0, lostSends (some op.operation), lostRecvs (some op.operation), 0) + a) a
  /-- `CancelIoEx` -/
  | abort {a : Hold} : Effect k { k with ops := k.ops.map Op.abort } a a
  /-- the CAS on `send_flag_` -/
  | grab {a : Hold} (hflag : k.sendFlag = false) :
      Effect k { k with sendFlag := true } a ((0, 0, 1, 0, 0) + a)
  /-- `send_flag_` is cleared by the thread that has the right to send -/
  | release {a : Hold} (hflag : k.sendFlag = true) :
      Effect k { k with sendFlag := false } ((0, 0, 1, 0, 0) + a) a
  /-- `SendAsyncImpl` returns without anything posted -/
  | giveUp {a : Hold} : Effect k { k with lostSend := k.lostSend + 1 } ((0, 0, 1, 0, 0) + a) a
  /-- `RecvAsync` refuses -/
  | refuse {a : Hold} : Effect k { k with lostRecv := k.lostRecv + 1 } ((0, 0, 0, 1, 0) + a) a
  /-- `Set`, when nobody has the right to send -/
  | reset {a : Hold} (hlost : k.sendFlag.toNat = k.lostSend) :
      Effect k { k with sendFlag := false, lostSend := 0 } a a
  /-- a `shared_ptr` ends, with an `OverlappedEx` or without one -/
  | drop {a : Hold} (ids : List Nat) (m n : Nat) (hrefs : 0 < k.refs) :
      Effect k
        { k with
          refs := k.refs - 1
          deleted := k.deleted ++ ids
          lostSend := k.lostSend + m
          lostRecv := k.lostRecv + n }
        ((1, (↑ids : Multiset Nat), m, n, 0) + a)
        ((0, 0, 0, 0, if k.refs = 1 then 1 else 0) + a)
  /-- `delete` of an `OverlappedEx` whose call has failed -/
  | discard {a : Hold} {id : Nat} (hrefs : 2 ≤ k.refs) :
      Effect k
        { k with refs := k.refs - 1, deleted := k.deleted ++ [id], lostRecv := k.lostRecv + 1 }
        ((2, {id}, 0, 1, 0) + a) ((1, 0, 0, 0, 0) + a)
  /-- the destructor returns -/
  | die {a : Hold} : Effect k { k with destroyed := k.destroyed + 1 } ((0, 0, 0, 0, 1) + a) a

namespace Effect

variable {k k' : Book} {a b : Hold}

theorem hold_erase {l : List Op} {op : Op} (h : op ∈ l) :
    (l.map Op.hold).sum = op.hold + ((l.erase op).map Op.hold).sum := by
  have hperm := (List.perm_cons_erase h).map Op.hold
  rw [hperm.sum_eq, List.map_cons, List.sum_cons]

theorem hold_abort (l : List Op) : ((l.map Op.abort).map Op.hold).sum = (l.map Op.hold).sum := by
  have hsame : Op.hold ∘ Op.abort = Op.hold := by
    funext op
    show (op.abort).hold = op.hold
    unfold Op.abort
    split <;> rfl
  rw [List.map_map, hsame]

/-- Nothing gets lost, and nothing is there twice. -/
theorem balanced (E : Effect k k' a b) : k'.credit + (k.debit + a) = k.credit + (k'.debit + b) := by
  cases E with
  | keep => rfl
  | take hmem =>
    unfold Book.credit Book.debit
    rw [hold_erase hmem]
    abel
  | abort =>
    unfold Book.credit Book.debit
    rw [hold_abort]
  | submit op =>
    unfold Book.credit Book.debit
    rw [List.map_cons, List.sum_cons]
    abel
  | lock hrefs | create hrefs =>
    simp [Book.credit, Book.debit, Prod.ext_iff, hrefs, Multiset.range_succ]
    omega
  | start op hrefs hid =>
    simp [Book.credit, Book.debit, Prod.ext_iff, hrefs, Op.hold, hid, Multiset.range_succ]
    omega
  | grab hflag | release hflag =>
    simp [Book.credit, Book.debit, Prod.ext_iff, hflag]
    omega
  | reset hlost =>
    simp [Book.credit, Book.debit, Prod.ext_iff, hlost]
    omega
  | giveUp | refuse | die =>
    simp [Book.credit, Book.debit, Prod.ext_iff]
    omega
  | drop ids m n hrefs =>
    simp [Book.credit, Book.debit, Prod.ext_iff, hrefs]
    refine ⟨by omega, ?_, by omega, by omega, ?_⟩
    · rw [← Multiset.coe_add]
      abel
    · -- it is the last reference, or there are others
      split_ifs <;> omega
  | discard hrefs =>
    simp [Book.credit, Book.debit, Prod.ext_iff]
    refine ⟨by omega, ?_, by omega, ?_⟩
    · rw [← Multiset.coe_add, Multiset.coe_singleton, ← Multiset.singleton_add]
      abel
    · split_ifs <;> omega

/-- The effect of a part of a procedure is that of the procedure. -/
theorem frame (E : Effect k k' a b) (d : Hold) : Effect k k' (a + d) (b + d) := by
  cases E with
  | keep => exact .keep
  | abort => exact .abort
  | reset hlost => exact .reset hlost
  | lock hrefs => rw [add_assoc]; exact .lock hrefs
  | take hmem => rw [add_assoc]; exact .take hmem
  | create hrefs => rw [add_assoc]; exact .create hrefs
  | submit op => rw [add_assoc]; exact .submit op
  | start op hrefs hid => rw [add_assoc]; exact .start op hrefs hid
  | grab hflag => rw [add_assoc]; exact .grab hflag
  | release hflag => rw [add_assoc]; exact .release hflag
  | giveUp => rw [add_assoc]; exact .giveUp
  | refuse => rw [add_assoc]; exact .refuse
  | drop ids m n hrefs => rw [add_assoc, add_assoc]; exact .drop ids m n hrefs
  | discard hrefs => rw [add_assoc, add_assoc]; exact .discard hrefs
  | die => rw [add_assoc]; exact .die

/-- A sub-procedure has the same effect wherever it is called. -/
theorem resume {P : Type} {v : P → Hold} {pc : P} {o : Option P} {d : Hold}
    (E : Effect k k' (v pc) (weigh v o)) {inside : P → Task} {after : Task}
    (hinside : ∀ pc, (inside pc).hold = v pc + d) (hafter : after.hold = d) :
    Effect k k' (v pc + d) (resume inside after o).hold := by
  rw [weigh_resume (w := Task.hold) hinside hafter]
  exact E.frame d

end Effect

/-! ## The steps -/

/-- The parts of what a task holds. -/
def Task.refs (task : Task) : Nat := task.hold.1
def Task.overlapped (task : Task) : Multiset Nat := task.hold.2.1
def Task.sends (task : Task) : Nat := task.hold.2.2.1
def Task.receives (task : Task) : Nat := task.hold.2.2.2.1
def Task.dies (task : Task) : Nat := task.hold.2.2.2.2

theorem casPending_book (c : Cell) : c.casPending.1.book = c.book := by
  unfold Cell.casPending
  split <;> rfl

theorem sendAsync_effect (ok : Bool) {c : Cell} (hrefs : 0 < c.refs) {pc : SendPc}
    (hsends : pc.hold.2.2.1 ≤ c.sendFlag.toNat) :
    Effect c.book (sendAsync ok c pc).1.book pc.hold (weigh SendPc.hold (sendAsync ok c pc).2) := by
  cases pc with
  | cas =>
    cases hflag : c.sendFlag with
    | true =>
      simp only [sendAsync, hflag]
      exact .keep
    | false =>
      simp only [sendAsync, hflag]
      exact Effect.grab (k := c.book) (a := 0) hflag
  | storeFalse =>
    have hflag : c.sendFlag = true := by
      cases h : c.sendFlag with
      | true => rfl
      | false =>
        rw [h] at hsends
        cases hsends
    exact Effect.release (k := c.book) (a := 0) hflag
  | reloadCount | loadCount | loadSize | loop wsa | dequeue wsa | unlink wsa | commit wsa =>
    simp only [sendAsync]
    split <;> exact .keep
  | dequeueFail wsa => exact .keep
  | overflow | noPacket =>
    have hbook := casPending_book c
    show Effect c.book { c.casPending.1.book with lostSend := c.lostSend + 1 } _
      (weigh SendPc.hold (if c.casPending.2 then _ else _))
    rw [hbook]
    split <;> exact Effect.giveUp (k := c.book) (a := 0)
  | cancel => exact .abort
  | post wsa =>
    cases ok with
    | false => exact Effect.create (k := c.book) (a := (0, 0, 1, 0, 0)) hrefs
    | true => exact Effect.start (k := c.book) (a := 0) (sendOp c.overlappeds wsa) hrefs rfl
  | postZero id wsa => exact Effect.submit (a := 0) { sendOp id wsa with done := some 0 }

theorem recvAsync_effect (ok : Bool) {c : Cell} (hrefs : 0 < c.refs) (pc : RecvAsyncPc) :
    Effect c.book (recvAsync ok c pc).1.book pc.hold
      (weigh RecvAsyncPc.hold (recvAsync ok c pc).2) := by
  cases pc with
  | check =>
    simp only [recvAsync]
    split
    · exact Effect.refuse (a := 0)
    · exact .keep
  | post =>
    cases ok with
    | false => exact Effect.create (k := c.book) (a := (0, 0, 0, 1, 0)) hrefs
    | true => exact Effect.start (k := c.book) (a := 0) (recvOp c.overlappeds c.window) hrefs rfl
  | postZero id room => exact Effect.submit (a := 0) { recvOp id room with done := some 0 }

theorem drain_book (c : Cell) (pc : DrainPc) : (drain c pc).1.book = c.book := by
  cases pc with
  | unlink =>
    simp only [drain]
    split <;> rfl
  | dequeue | dequeueFail => rfl

theorem handler_hold (op : Op) (n : Nat) : (op.handler n).hold = op.hold := by
  obtain ⟨id, operation, wsa, room, done⟩ := op
  cases operation with
  | recv | send =>
    show Task.hold (if n = 0 then _ else _) = _
    split <;> rfl
  | accept | connect => rfl

theorem drop_hold (c : Cell) :
    weigh Task.hold c.drop.2 = (0, 0, 0, 0, if c.refs = 1 then 1 else 0) := by
  show weigh Task.hold (if c.refs = 1 then _ else _) = _
  split <;> rfl

/-- A task that calls `Set`. -/
def Task.sets : Task → Bool
  | .accept _ .set | .connect _ .set | .destroy .release => true
  | _ => false

/-- **One step of a task, and what is held.** -/
theorem run_effect {task : Task} (ok : Bool) {c : Cell} (hrefs : task.refs ≤ c.refs)
    (hsends : task.sends ≤ c.sendFlag.toNat)
    (hsets : task.sets = true → c.sendFlag.toNat = c.lostSend) :
    Effect c.book (task.run ok c).1.book task.hold (weigh Task.hold (task.run ok c).2) := by
  cases task with
  | post e pc =>
    cases pc with
    | newOverlapped => exact Effect.create (k := c.book) (a := (1, 0, 0, 1, 0)) hrefs
    | call id =>
      cases ok with
      | false => exact .keep
      | true =>
        cases e with
        | server =>
          exact Effect.submit (k := c.book) (a := (1, 0, 0, 0, 0)) ⟨id, .accept, [], 0, none⟩
        | client =>
          exact Effect.submit (k := c.book) (a := (1, 0, 0, 0, 0)) ⟨id, .connect, [], 0, none⟩
    | failed id => exact Effect.discard (k := c.book) (a := 0) hrefs
  | sendPacket pc =>
    cases pc with
    | sendAsync pc =>
      have hpos : 0 < c.refs := Nat.lt_of_lt_of_le (Nat.succ_pos _) hrefs
      exact (sendAsync_effect ok hpos hsends).resume (d := (1, 0, 0, 0, 0)) (fun _ => rfl) rfl
    | check m | serialize m b =>
      simp only [Task.run, sendPacket]
      split <;> exact .keep
    | allocate m | link b | count => exact .keep
  | disconnect pc =>
    cases pc with
    | cas =>
      show Effect c.book c.casPending.1.book _ (Task.hold (if c.casPending.2 then _ else _))
      rw [casPending_book]
      split <;> exact .keep
    | cancel => exact .abort
  | recv id pc =>
    cases pc with
    | recvAsync pc =>
      have hpos : 0 < c.refs := Nat.lt_of_lt_of_le (Nat.succ_pos _) hrefs
      exact (recvAsync_effect ok hpos pc).resume (d := (1, {id}, 0, 0, 0)) (fun _ => rfl) rfl
    | loop k =>
      simp only [Task.run, recvComplete]
      split
      · exact .keep
      split
      · split <;> exact .keep
      · split <;> exact .keep
    | loadPending =>
      simp only [Task.run, recvComplete]
      split <;> exact .keep
    | moveRear n | inHandler k => exact .keep
  | send id pc =>
    cases pc with
    | sendAsync pc =>
      have hpos : 0 < c.refs := Nat.lt_of_lt_of_le (Nat.succ_pos _) hrefs
      exact (sendAsync_effect ok hpos hsends).resume (d := (1, {id}, 0, 0, 0)) (fun _ => rfl) rfl
    | delete i | loadPending | loadCount =>
      simp only [Task.run, sendComplete]
      split <;> exact .keep
    | clearCount => exact .keep
    | clearFlag =>
      have hflag : c.sendFlag = true := by
        cases h : c.sendFlag with
        | true => rfl
        | false =>
          rw [h] at hsends
          cases hsends
      exact Effect.release (k := c.book) (a := (1, {id}, 0, 0, 0)) hflag
  | accept id pc =>
    cases pc with
    | recvAsync pc =>
      have hpos : 0 < c.refs := Nat.lt_of_lt_of_le (Nat.succ_pos _) hrefs
      exact (recvAsync_effect ok hpos pc).resume (d := (1, {id}, 0, 0, 0)) (fun _ => rfl) rfl
    | drain pc =>
      show Effect c.book (drain c pc).1.book _ (resume _ _ _).hold
      rw [drain_book]
      cases (drain c pc).2 <;> exact .keep
    | cast | setsockopt | getpeername =>
      simp only [Task.run, acceptComplete]
      split <;> exact .keep
    | set => exact Effect.reset (k := c.book) (hsets rfl)
    | newUser | callback | inCallback => exact .keep
  | connect id pc =>
    cases pc with
    | recvAsync pc =>
      have hpos : 0 < c.refs := Nat.lt_of_lt_of_le (Nat.succ_pos _) hrefs
      exact (recvAsync_effect ok hpos pc).resume (d := (1, {id}, 0, 0, 0)) (fun _ => rfl) rfl
    | drain pc =>
      show Effect c.book (drain c pc).1.book _ (resume _ _ _).hold
      rw [drain_book]
      cases (drain c pc).2 <;> exact .keep
    | cast | setsockopt =>
      simp only [Task.run, connectComplete]
      split <;> exact .keep
    | set => exact Effect.reset (k := c.book) (hsets rfl)
    | newUser | callback | inCallback => exact .keep
  | delete id lost =>
    show Effect c.book _ _ (weigh Task.hold c.drop.2)
    rw [drop_hold]
    exact Effect.drop (k := c.book) (a := 0) [id] _ _ hrefs
  | unlock =>
    show Effect c.book _ _ (weigh Task.hold c.drop.2)
    rw [drop_hold]
    have E := Effect.drop (k := c.book) (a := 0) [] 0 0 hrefs
    rw [List.append_nil] at E
    exact E
  | destroy pc =>
    cases pc with
    | drain pc =>
      have hbook := drain_book c pc
      simp only [Task.run, destroy]
      split
      · show Effect c.book (drain c pc).1.book _ _
        rw [hbook]
        exact .keep
      · show Effect c.book { (drain c pc).1.book with destroyed := c.destroyed + 1 } _ _
        rw [hbook]
        exact Effect.die (a := 0)
    | onUserDisconnect =>
      simp only [Task.run, destroy]
      split <;> exact .keep
    | release => exact Effect.reset (k := c.book) (hsets rfl)
    | clearOwner => exact .keep

end JunCore.SessionSteps
