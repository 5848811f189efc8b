/-
  `JunCommon/container/LFStack.h`, one memory operation at a time.

  `Push` takes a node from the pool and links it before the first one; `Pop` takes the first one off, and
  gives it back to the pool.  The stack has a stamped word `topStamp` of its own, and a link `next` and
  the value `data` in the object that the pool hands out; inside of `Alloc` and `Free`, a step is a step of
  `LFObjectPool`.  To the pool, a node that is linked is held by the stack: by the caller `none`.  The
  thread that links it hands it over, and the thread that takes it off gets it back.

  The log is that of `Linearizable`: `Push` takes effect with its CAS; so does `Pop`, or, if it finds the
  stack empty, with its load.  A call has the length of the log as its number.
-/
import JunCore.Lib.Linearizable
import JunCore.Common.LFObjectPool
import Mathlib.Data.BitVec

set_option linter.unusedVariables false
set_option linter.unusedSectionVars false

namespace JunCore.LFStack

open Transition Function Linked Counting Linearizable LFQueueSteps LFObjectPool

/-! ## The program -/

inductive Op (α : Type)
  | push (data : α)
  | pop
  deriving DecidableEq

/-- `Pop` returns true and the value, or false. -/
inductive Res (α : Type)
  | pushed
  | popped (data : α)
  | empty
  deriving DecidableEq

/-- A stack that is used by one thread; the last value comes first. -/
def stack (α : Type) : Spec (Op α) (Res α) (List α) where
  init := []
  apply
    | l, .push data => (data :: l, .pushed)
    | [], .pop => ([], .empty)
    | data :: l, .pop => (l, .popped data)

/-- The operation a thread does next; `id` is the number of the call. -/
inductive Pc (α : Type)
  | idle
  -- `Push`
  | alloc (id : Nat) (data : α)
  | set (id : Nat) (data : α) (p : Nat)
  | storeData (id : Nat) (data : α) (p : Nat)
  | loadTop (id : Nat) (data : α) (p : Nat)
  | storeNext (id : Nat) (data : α) (p : Nat) (top : Stamped (Option Nat))
  | pushTop (id : Nat) (data : α) (p : Nat) (top : Stamped (Option Nat))
  | countNode (id : Nat) (data : α)
  -- `Pop`
  | reloadTop (id : Nat)
  | loadNext (id : Nat) (top : Stamped (Option Nat)) (p : Nat)
  | popTop (id : Nat) (top : Stamped (Option Nat)) (p : Nat) (next : Option Nat)
  | discountNode (id : Nat) (p : Nat)
  | loadData (id : Nat) (p : Nat)
  | free (id : Nat) (data : α)
  | empty (id : Nat)

structure Sys (T α : Type) where
  pool : LFObjectPool.Sys (Option T)
  topStamp : Stamped (Option Nat)
  nodeCount : BitVec 32
  /-- `LFStack::Node::next` -/
  next : Nat → Option Nat
  data : Nat → α
  threads : T → Pc α
  log : List (Entry T (Op α) (Res α))

variable {T α : Type} [DecidableEq T]

/-- What thread `t` does to itself and to the log. -/
def Sys.goes (s : Sys T α) (t : T) (pc : Pc α) (log : List (Entry T (Op α) (Res α))) : Sys T α :=
  { s with threads := update s.threads t pc, log := s.log ++ log }

/-- Inside of `Alloc`, the constructor of `LFStack::Node` runs in the node that was taken off or
    created. -/
def construct (m : Pool) (next : Nat → Option Nat) : LFObjectPool.Pc → Nat → Option Nat
  | .construct p => update next p none
  | .create => update next m.created none
  | _ => next

/-- One operation of thread `t`. -/
def Pc.run (s : Sys T α) (t : T) : Pc α → Option (Sys T α)
  | .idle => none
  | .alloc id data =>
    match (s.pool.callers (some t)).pc with
    | .allocated p => some ({ s with pool := s.pool.go (some t) }.goes t (.set id data p) [])
    | pc => some { s with pool := s.pool.go (some t), next := construct s.pool.pool s.next pc }
  | .set id data p => some ({ s with next := update s.next p none }.goes t (.storeData id data p) [])
  | .storeData id data p => some ({ s with data := update s.data p data }.goes t (.loadTop id data p) [])
  | .loadTop id data p => some (s.goes t (.storeNext id data p s.topStamp) [])
  | .storeNext id data p top =>
    some ({ s with next := update s.next p top.node }.goes t (.pushTop id data p top) [])
  | .pushTop id data p top =>
    if s.topStamp.same top then
      some ({ s with topStamp := top.move (some p), pool := s.pool.hand (some t) none p }.goes t
        (.countNode id data) [.commit t id (.push data) .pushed])
    else some (s.goes t (.loadTop id data p) [])
  | .countNode id data =>
    some ({ s with nodeCount := s.nodeCount + 1#32 }.goes t .idle [.ret t id .pushed])
  | .reloadTop id =>
    match s.topStamp.node with
    | some p => some (s.goes t (.loadNext id s.topStamp p) [])
    | none => some (s.goes t (.empty id) [.commit t id .pop .empty])
  | .loadNext id top p => some (s.goes t (.popTop id top p (s.next p)) [])
  | .popTop id top p next =>
    if s.topStamp.same top then
      some ({ s with topStamp := top.move next, pool := s.pool.hand none (some t) p }.goes t
        (.discountNode id p) [.commit t id .pop (.popped (s.data p))])
    else some (s.goes t (.reloadTop id) [])
  | .discountNode id p =>
    some ({ s with nodeCount := s.nodeCount - 1#32 }.goes t (.loadData id p) [])
  | .loadData id p => some ({ s with pool := s.pool.free (some t) p }.goes t (.free id (s.data p)) [])
  | .free id data =>
    match (s.pool.callers (some t)).pc with
    | .freed => some ({ s with pool := s.pool.go (some t) }.goes t .idle [.ret t id (.popped data)])
    | _ => some { s with pool := s.pool.go (some t) }
  | .empty id => some (s.goes t .idle [.ret t id .empty])

inductive Act (α : Type)
  | push (data : α)
  | pop
  | go

def step (s : Sys T α) : T × Act α → Option (Sys T α)
  | (t, .push data) =>
    match s.threads t with
    | .idle => some ({ s with pool := s.pool.alloc (some t) }.goes t (.alloc s.log.length data)
        [.call t s.log.length (.push data)])
    | _ => none
  | (t, .pop) =>
    match s.threads t with
    | .idle => some (s.goes t (.reloadTop s.log.length) [.call t s.log.length .pop])
    | _ => none
  | (t, .go) => (s.threads t).run s t

/-- A stack just made, in any memory. -/
def Sys.new (before : Pool) (next : Nat → Option Nat) (data : Nat → α) : Sys T α where
  pool := ⟨.new before 0 true, fun _ => {}⟩
  topStamp := ⟨0, none⟩
  nodeCount := 0#32
  next := next
  data := data
  threads _ := .idle
  log := []

def system (T α : Type) [DecidableEq T] : System (Sys T α) where
  init s := ∃ before next data, s = .new before next data
  next s s' := ∃ a, step s a = some s'

def Pc.Fresh (now : Stamped (Option Nat)) : Pc α → Prop
  | .storeNext _ _ _ top | .pushTop _ _ _ top | .loadNext _ top _ | .popTop _ top _ _ => now.Recent top
  | _ => True

/-- No stamp has come round since a call has read it. -/
def Sys.Fresh (s : Sys T α) : Prop := s.pool.Fresh ∧ ∀ t, (s.threads t).Fresh s.topStamp

/-- The runs in which this is so. -/
def fresh (T α : Type) [DecidableEq T] : System (Sys T α) := (system T α).guard fun s _ => s.Fresh

/-! ## What is to hold -/

/-- A moment of the run at which the stack was empty, inside of the call number `id` of thread `t`. -/
def WasEmpty (s : Sys T α) (t : T) (id : Nat) : Prop :=
  ∃ s₀ : Sys T α, Reachable (fresh T α) s₀ ∧ Reachable ((fresh T α).after s₀) s ∧ .call t id .pop ∈ s₀.log ∧
    (∀ res, .ret t id res ∉ s₀.log) ∧ s₀.topStamp.node = none

/-- Where the calls of `Alloc` and of `Free` are that a thread makes. -/
def Pc.Calls : Pc α → LFObjectPool.Pc → Prop
  | .alloc _ _, pc => pc.allocates = true
  | .free _ _, pc => pc.frees = true
  | _, pc => pc = .idle

/-- How far its call is. -/
def Pc.phase (data : Nat → α) : Pc α → Phase (Op α) (Res α)
  | .idle => .idle
  | .alloc id x | .set id x _ | .storeData id x _ | .loadTop id x _ | .storeNext id x _ _
  | .pushTop id x _ _ => .called id (.push x)
  | .countNode id x => .effective id (.push x) .pushed
  | .reloadTop id | .loadNext id _ _ | .popTop id _ _ _ => .called id .pop
  | .discountNode id p | .loadData id p => .effective id .pop (.popped (data p))
  | .free id x => .effective id .pop (.popped x)
  | .empty id => .effective id .pop .empty

def Sys.held (s : Sys T α) (c : Option T) : List Nat := (s.pool.callers c).held

/-- What thread `t` knows at the operation it does next. -/
def Pc.Knows (s : Sys T α) (t : T) : Pc α → Prop
  | .set _ _ p | .storeData _ _ p => p ∈ s.held (some t)
  | .loadTop _ x p => p ∈ s.held (some t) ∧ s.data p = x
  | .storeNext _ x p top => p ∈ s.held (some t) ∧ s.data p = x ∧ top.Was s.topStamp
  | .pushTop _ x p top => p ∈ s.held (some t) ∧ s.data p = x ∧ top.Was s.topStamp ∧ s.next p = top.node
  | .loadNext _ top p => top.Was s.topStamp ∧ top.node = some p
  | .popTop _ top p next => top.Was s.topStamp ∧ top.node = some p ∧
      (top.count = s.topStamp.count → s.next p = next)
  | .discountNode _ p | .loadData _ p => p ∈ s.held (some t)
  | _ => True

/-- What a thread owes to the counter: its node is linked and not counted, or taken off and still
    counted. -/
def Pc.owed : Pc α → BitVec 32
  | .countNode _ _ => -1#32
  | .discountNode _ _ => 1#32
  | _ => 0#32

/-- **The invariant.** -/
structure Sound [Fintype T] (s : Sys T α) : Prop where
  pool : Reachable (LFObjectPool.fresh (Option T)) s.pool
  calls : ∀ t, (s.threads t).Calls (s.pool.callers (some t)).pc
  chain : Chain s.next s.topStamp.node (s.held none)
  knows : ∀ t, (s.threads t).Knows s t
  atomic : Atomic (stack α) s.log fun t => (s.threads t).phase s.data
  contents : (stack α).run [] (effects s.log) = (s.held none).map s.data
  count : s.nodeCount = BitVec.ofNat 32 (s.held none).length + ∑ t, (s.threads t).owed

section

variable [Fintype T] {s : Sys T α}

/-- **The rely rule.**  What thread `t` knows stays true when another one writes to nodes that are neither
    linked nor held by `t`. -/
theorem Sound.knows_later (S : Sound s) {t : T} {s' : Sys T α} (hheld : s'.held (some t) = s.held (some t))
    (htop : s.topStamp.Was s'.topStamp)
    (hnext : ∀ p, p ∈ s.held none ∨ p ∈ s.held (some t) → s'.next p = s.next p)
    (hdata : ∀ p, p ∈ s.held (some t) → s'.data p = s.data p) : (s.threads t).Knows s' t := by
  have K := S.knows t
  generalize s.threads t = pc at K
  cases pc with
  | set id x p | storeData id x p | discountNode id p | loadData id p =>
    show p ∈ s'.held (some t)
    rw [hheld]
    exact K
  | loadTop id x p =>
    refine ⟨by rw [hheld]; exact K.1, ?_⟩
    rw [hdata p K.1]
    exact K.2
  | storeNext id x p top =>
    refine ⟨by rw [hheld]; exact K.1, ?_, K.2.2.trans htop⟩
    rw [hdata p K.1]
    exact K.2.1
  | pushTop id x p top =>
    refine ⟨by rw [hheld]; exact K.1, ?_, K.2.2.1.trans htop, ?_⟩
    · rw [hdata p K.1]
      exact K.2.1
    · rw [hnext p (.inr K.1)]
      exact K.2.2.2
  | loadNext id top p => exact ⟨K.1.trans htop, K.2⟩
  | popTop id top p next =>
    refine ⟨K.1.trans htop, K.2.1, fun heq => ?_⟩
    -- the node is still the first one
    have hcur := K.1.between htop heq
    have hchain := S.chain
    rw [← K.1.2 hcur, K.2.1] at hchain
    rw [hnext p (.inl hchain.mem_head)]
    exact K.2.2 hcur
  | _ => exact trivial

/-- The phase of a thread does not change when others write. -/
theorem Sound.phase_update (S : Sound s) {u : T} {pc : Pc α} {data' : Nat → α}
    (hdata : ∀ t, t ≠ u → ∀ p, p ∈ s.held (some t) → data' p = s.data p) :
    (fun t => (update s.threads u pc t).phase data') =
      update (fun t => (s.threads t).phase s.data) u (pc.phase data') := by
  funext t
  rw [update_apply, update_apply]
  split
  · rfl
  · rename_i ht
    have K := S.knows t
    generalize s.threads t = pc' at K
    cases pc' with
    | discountNode id p | loadData id p =>
      show Phase.effective id Op.pop (Res.popped (data' p)) = Phase.effective id Op.pop (Res.popped (s.data p))
      rw [hdata t ht p K]
    | _ => rfl

theorem owed_update {threads : T → Pc α} {u : T} {pc : Pc α} {b b' k : BitVec 32}
    (h : b' + (threads u).owed = b + pc.owed) (hb : b = k + ∑ t, (threads t).owed) :
    b' = k + ∑ t, (update threads u pc t).owed := by
  have hsum := sum_update Pc.owed threads u pc
  rw [hb, add_assoc, ← hsum, ← add_assoc] at h
  exact add_right_cancel h

/-- **A step** of thread `u` that does not move a node between the stack and a thread. -/
theorem Sound.stay (S : Sound s) {u : T} (pc : Pc α) {s' : Sys T α} (hthreads : s'.threads = update s.threads u pc)
    (hpool : Reachable (LFObjectPool.fresh (Option T)) s'.pool)
    (hcallers : ∀ c, c ≠ some u → s'.pool.callers c = s.pool.callers c)
    (hcalls : pc.Calls (s'.pool.callers (some u)).pc) (htop : s'.topStamp = s.topStamp)
    (hnext : ∀ c, c ≠ some u → ∀ p, p ∈ s.held c → s'.next p = s.next p)
    (hdata : ∀ c, c ≠ some u → ∀ p, p ∈ s.held c → s'.data p = s.data p) (hknows : pc.Knows s' u)
    (hatomic : Atomic (stack α) s'.log (update (fun t => (s.threads t).phase s.data) u (pc.phase s'.data)))
    (heffects : (stack α).run [] (effects s'.log) = (stack α).run [] (effects s.log))
    (hcount : s'.nodeCount + (s.threads u).owed = s.nodeCount + pc.owed) : Sound s' := by
  have hnone : s'.held none = s.held none := congrArg Caller.held (hcallers none (by simp))
  have hne : ∀ {t : T}, t ≠ u → some t ≠ some u := fun h h' => h (Option.some.inj h')
  refine ⟨hpool, fun t => ?_, ?_, fun t => ?_, ?_, ?_, ?_⟩
  · rw [hthreads, update_apply]
    split
    · rename_i ht
      rw [ht]
      exact hcalls
    · rw [hcallers _ (hne ‹_›)]
      exact S.calls t
  · rw [htop, hnone]
    exact S.chain.congr fun p hp => hnext none (by simp) p hp
  · rw [hthreads, update_apply]
    split
    · rename_i ht
      rw [ht]
      exact hknows
    · rename_i ht
      refine S.knows_later (congrArg Caller.held (hcallers _ (hne ht))) (by rw [htop]; exact .refl _) (fun p hp => ?_)
        fun p hp => hdata _ (hne ht) p hp
      rcases hp with hp | hp
      · exact hnext none (by simp) p hp
      · exact hnext _ (hne ht) p hp
  · rw [hthreads, S.phase_update fun t ht => hdata _ (hne ht)]
    exact hatomic
  · rw [heffects, hnone, S.contents]
    exact List.map_congr_left fun p hp => (hdata none (by simp) p hp).symm
  · rw [hthreads, hnone]
    exact owed_update hcount S.count

end

section

variable [Fintype T] {s : Sys T α}

/-- **A step** of thread `u` that moves a node. -/
theorem Sound.shift (S : Sound s) {u : T} (pc : Pc α) {s' : Sys T α} (hthreads : s'.threads = update s.threads u pc)
    (hpool : Reachable (LFObjectPool.fresh (Option T)) s'.pool)
    (hpcs : ∀ c, (s'.pool.callers c).pc = (s.pool.callers c).pc)
    (hheld : ∀ t, t ≠ u → s'.held (some t) = s.held (some t)) (hcalls : pc.Calls (s.pool.callers (some u)).pc)
    (htop : s.topStamp.Was s'.topStamp) (hnext : s'.next = s.next) (hdata : s'.data = s.data)
    (hchain : Chain s'.next s'.topStamp.node (s'.held none)) (hknows : pc.Knows s' u)
    (hatomic : Atomic (stack α) s'.log (update (fun t => (s.threads t).phase s.data) u (pc.phase s'.data)))
    (hcontents : (stack α).run [] (effects s'.log) = (s'.held none).map s'.data)
    (hcount : s'.nodeCount + BitVec.ofNat 32 (s.held none).length + (s.threads u).owed =
      s.nodeCount + BitVec.ofNat 32 (s'.held none).length + pc.owed) : Sound s' := by
  refine ⟨hpool, fun t => ?_, hchain, fun t => ?_, ?_, hcontents, ?_⟩
  · rw [hthreads, update_apply, hpcs]
    split
    · rename_i ht
      rw [ht]
      exact hcalls
    · exact S.calls t
  · rw [hthreads, update_apply]
    split
    · rename_i ht
      rw [ht]
      exact hknows
    · exact S.knows_later (hheld t ‹_›) htop (fun p _ => by rw [hnext]) fun p _ => by rw [hdata]
  · rw [hthreads, S.phase_update fun t _ p _ => by rw [hdata]]
    exact hatomic
  · rw [hthreads]
    have hsum := sum_update Pc.owed s.threads u pc
    have hold := S.count
    -- as integers modulo 2^32
    have hcancel : s'.nodeCount + (BitVec.ofNat 32 (s.held none).length + ((s.threads u).owed + ∑ t, (s.threads t).owed)) =
        BitVec.ofNat 32 (s'.held none).length + ∑ t, (update s.threads u pc t).owed +
          (BitVec.ofNat 32 (s.held none).length + ((s.threads u).owed + ∑ t, (s.threads t).owed)) := by
      rw [← add_assoc, ← add_assoc, hcount, hold]
      calc BitVec.ofNat 32 (s.held none).length + ∑ t, (s.threads t).owed + BitVec.ofNat 32 (s'.held none).length +
            pc.owed + ∑ t, (s.threads t).owed
          = BitVec.ofNat 32 (s.held none).length + BitVec.ofNat 32 (s'.held none).length +
            (∑ t, (s.threads t).owed + pc.owed) + ∑ t, (s.threads t).owed := by abel
        _ = _ := by
          rw [← hsum]
          abel
    exact add_right_cancel hcancel

/-- What is in the pool, and who has it. -/
theorem Sound.exclusive (S : Sound s) : ∃ free, Exclusive s.pool free := by
  obtain ⟨L, P⟩ := LFObjectPool.sound S.pool
  exact ⟨L.free, P.exclusive⟩

theorem Sound.held_inj (S : Sound s) {c d : Option T} {p : Nat} (hc : p ∈ s.held c) (hd : p ∈ s.held d) : c = d := by
  obtain ⟨free, E⟩ := S.exclusive
  exact E.held c d p hc hd

/-- `Push` links its node. -/
theorem Sound.push (S : Sound s) (hfresh : s.Fresh) {u : T} {id p : Nat} {x : α} {top : Stamped (Option Nat)}
    (hpc : s.threads u = .pushTop id x p top) (hsame : s.topStamp.same top = true) :
    Sound ({ s with topStamp := top.move (some p), pool := s.pool.hand (some u) none p }.goes u
        (.countNode id x) [.commit u id (.push x) .pushed]) := by
  have K := S.knows u
  rw [hpc] at K
  obtain ⟨hheld, hdata, hwas, hnext⟩ := K
  have hrecent := hfresh.2 u
  rw [hpc] at hrecent
  have htop := Stamped.eq_of_same hwas hrecent hsame
  have hnone : ((s.pool.hand (some u) none p).callers none).held = p :: s.held none :=
    Sys.hand_to (by simp)
  have hphase : (fun t => (s.threads t).phase s.data) u = .called id (.push x) := by
    dsimp only
    rw [hpc]
    rfl
  have hatomic := S.atomic.commit .pushed hphase rfl
  refine S.shift (u := u) (.countNode id x) rfl
    (.step S.pool ⟨Sys.hand_next hheld, hfresh.1⟩) (fun c => Sys.hand_pc) (fun t ht => ?_) ?_ ?_ rfl rfl ?_
    trivial hatomic ?_ ?_
  · exact congrArg Caller.held (Sys.hand_held (by simp) fun h => ht (Option.some.inj h))
  · have hcalls := S.calls u
    rw [hpc] at hcalls
    exact hcalls
  · show s.topStamp.Was (top.move (some p))
    rw [htop]
    exact top.was_move _
  · show Chain s.next (some p) ((s.pool.hand (some u) none p).callers none).held
    rw [hnone]
    refine ⟨rfl, ?_⟩
    rw [hnext, ← htop]
    exact S.chain
  · show (stack α).run [] (effects (s.log ++ [.commit u id (.push x) .pushed])) =
      ((s.pool.hand (some u) none p).callers none).held.map s.data
    rw [effects_append, Spec.run_append, S.contents, hnone, List.map_cons, hdata]
    rfl
  · show s.nodeCount + BitVec.ofNat 32 (s.held none).length + (s.threads u).owed = s.nodeCount +
      BitVec.ofNat 32 ((s.pool.hand (some u) none p).callers none).held.length + -1#32
    rw [hnone, List.length_cons, BitVec.ofNat_add, hpc]
    show s.nodeCount + BitVec.ofNat 32 (s.held none).length + 0#32 =
      s.nodeCount + (BitVec.ofNat 32 (s.held none).length + 1#32) + -1#32
    rw [add_assoc, add_assoc, add_assoc]
    rfl

/-- `Pop` takes the first node off. -/
theorem Sound.pop (S : Sound s) (hfresh : s.Fresh) {u : T} {id p : Nat} {top : Stamped (Option Nat)}
    {next : Option Nat} (hpc : s.threads u = .popTop id top p next) (hsame : s.topStamp.same top = true) :
    Sound ({ s with topStamp := top.move next, pool := s.pool.hand none (some u) p }.goes u
        (.discountNode id p) [.commit u id .pop (.popped (s.data p))]) := by
  have K := S.knows u
  rw [hpc] at K
  obtain ⟨hwas, hnode, hnext⟩ := K
  have hrecent := hfresh.2 u
  rw [hpc] at hrecent
  have htop := Stamped.eq_of_same hwas hrecent hsame
  have hchain := S.chain
  rw [htop, hnode] at hchain
  obtain ⟨rest, hlist, hrest⟩ := hchain.head
  have hheld : p ∈ s.held none := by
    rw [hlist]
    exact List.mem_cons_self
  have hnone : ((s.pool.hand none (some u) p).callers none).held = rest := by
    rw [Sys.hand_from (by simp)]
    show (s.held none).erase p = rest
    rw [hlist, List.erase_cons_head]
  have hphase : (fun t => (s.threads t).phase s.data) u = .called id .pop := by
    dsimp only
    rw [hpc]
    rfl
  have hcontents : (stack α).run [] (effects s.log) = s.data p :: rest.map s.data := by
    rw [S.contents, hlist, List.map_cons]
  have hatomic := S.atomic.commit (.popped (s.data p)) hphase (by
    rw [show (stack α).init = [] from rfl, hcontents]
    rfl)
  refine S.shift (u := u) (.discountNode id p) rfl
    (.step S.pool ⟨Sys.hand_next hheld, hfresh.1⟩) (fun c => Sys.hand_pc) (fun t ht => ?_) ?_ ?_ rfl rfl ?_
    ?_ hatomic ?_ ?_
  · exact congrArg Caller.held (Sys.hand_held (fun h => ht (Option.some.inj h)) (by simp))
  · have hcalls := S.calls u
    rw [hpc] at hcalls
    exact hcalls
  · show s.topStamp.Was (top.move next)
    rw [htop]
    exact top.was_move _
  · show Chain s.next next ((s.pool.hand none (some u) p).callers none).held
    rw [hnone, ← hnext (by rw [htop])]
    exact hrest
  · show p ∈ ((s.pool.hand none (some u) p).callers (some u)).held
    rw [Sys.hand_to (by simp)]
    exact List.mem_cons_self
  · show (stack α).run [] (effects (s.log ++ [.commit u id .pop (.popped (s.data p))])) =
      ((s.pool.hand none (some u) p).callers none).held.map s.data
    rw [effects_append, Spec.run_append, hcontents, hnone]
    rfl
  · show s.nodeCount + BitVec.ofNat 32 (s.held none).length + (s.threads u).owed = s.nodeCount +
      BitVec.ofNat 32 ((s.pool.hand none (some u) p).callers none).held.length + 1#32
    rw [hnone, hlist, List.length_cons, BitVec.ofNat_add, hpc]
    show s.nodeCount + (BitVec.ofNat 32 rest.length + 1#32) + 0#32 = s.nodeCount + BitVec.ofNat 32 rest.length + 1#32
    rw [← add_assoc]
    exact add_zero _

end

section

variable [Fintype T] {s : Sys T α}

/-- A step that nobody can see from outside. -/
theorem Sound.quiet (S : Sound s) {u : T} {pc pc' : Pc α} {s' : Sys T α} (hpc : s.threads u = pc)
    (hthreads : s'.threads = update s.threads u pc')
    (hpool : Reachable (LFObjectPool.fresh (Option T)) s'.pool)
    (hcallers : ∀ c, c ≠ some u → s'.pool.callers c = s.pool.callers c)
    (hcalls : pc'.Calls (s'.pool.callers (some u)).pc) (htop : s'.topStamp = s.topStamp)
    (hnext : ∀ c, c ≠ some u → ∀ p, p ∈ s.held c → s'.next p = s.next p)
    (hdata : ∀ c, c ≠ some u → ∀ p, p ∈ s.held c → s'.data p = s.data p) (hknows : pc'.Knows s' u)
    (hlog : s'.log = s.log) (hphase : pc'.phase s'.data = pc.phase s.data)
    (hcount : s'.nodeCount + pc.owed = s.nodeCount + pc'.owed) : Sound s' := by
  refine S.stay pc' hthreads hpool hcallers hcalls htop hnext hdata hknows ?_ (by rw [hlog]) (by rw [hpc]; exact hcount)
  have hsame : update (fun t => (s.threads t).phase s.data) u (pc'.phase s'.data) =
      fun t => (s.threads t).phase s.data := by
    rw [update_eq_self_iff, hphase, hpc]
  rw [hlog, hsame]
  exact S.atomic

/-- A step that reads. -/
theorem Sound.read (S : Sound s) {u : T} {pc pc' : Pc α} (hpc : s.threads u = pc)
    (hcalls : pc'.Calls (s.pool.callers (some u)).pc) (hknows : pc'.Knows s u)
    (hphase : pc'.phase s.data = pc.phase s.data) (howed : pc'.owed = pc.owed) : Sound (s.goes u pc' []) := by
  refine S.quiet hpc rfl S.pool (fun _ _ => rfl) hcalls rfl (fun _ _ _ _ => rfl) (fun _ _ _ _ => rfl) ?_
    (List.append_nil _) hphase (by rw [howed]; rfl)
  cases pc' <;> exact hknows

/-- A step that writes to the thread's own node. -/
theorem Sound.write (S : Sound s) {u : T} {p : Nat} {pc pc' : Pc α} {next' : Nat → Option Nat} {data' : Nat → α}
    (hpc : s.threads u = pc) (hp : p ∈ s.held (some u)) (hnext : ∀ q, q ≠ p → next' q = s.next q)
    (hdata : ∀ q, q ≠ p → data' q = s.data q) (hcalls : pc'.Calls (s.pool.callers (some u)).pc)
    (hknows : pc'.Knows { s with next := next', data := data' } u) (hphase : pc'.phase data' = pc.phase s.data)
    (howed : pc'.owed = pc.owed) : Sound ({ s with next := next', data := data' }.goes u pc' []) := by
  have hne : ∀ c, c ≠ some u → ∀ q, q ∈ s.held c → q ≠ p := by
    rintro c hc q hq rfl
    exact hc (S.held_inj hq hp)
  refine S.quiet hpc rfl S.pool (fun _ _ => rfl) hcalls rfl (fun c hc q hq => hnext q (hne c hc q hq))
    (fun c hc q hq => hdata q (hne c hc q hq)) ?_ (List.append_nil _) hphase (by rw [howed]; rfl)
  cases pc' <;> exact hknows

/-- A step inside of the pool. -/
theorem Sound.inside (S : Sound s) (hfresh : s.Fresh) {u : T} {pc : Pc α} {next' : Nat → Option Nat}
    (hpc : s.threads u = pc) (hne : (s.pool.callers (some u)).pc ≠ .idle)
    (hnext : ∀ c p, p ∈ s.held c → next' p = s.next p)
    (hcalls : pc.Calls ((s.pool.go (some u)).callers (some u)).pc)
    (hknows : pc.Knows { s with pool := s.pool.go (some u), next := next' } u) :
    Sound { s with pool := s.pool.go (some u), next := next' } := by
  refine S.quiet hpc (?_ : _ = update s.threads u pc) (.step S.pool ⟨Sys.go_next hne, hfresh.1⟩) (fun c hc => Sys.go_callers hc) hcalls rfl
    (fun c _ p hp => hnext c p hp) (fun _ _ _ _ => rfl) hknows rfl rfl rfl
  rw [← hpc, update_eq_self]

/-- The constructor writes to a node that nobody holds. -/
theorem Sound.construct_next (S : Sound s) {u : T} {q : LFObjectPool.Pc} (hq : (s.pool.callers (some u)).pc = q)
    (c : Option T) (p : Nat) (hp : p ∈ s.held c) : construct s.pool.pool s.next q p = s.next p := by
  obtain ⟨free, E⟩ := S.exclusive
  cases q with
  | construct p' =>
    refine update_of_ne ?_ _ _
    rintro rfl
    exact (E.hands (some u) c p (by rw [hq]; rfl)).1 hp
  | create =>
    refine update_of_ne ?_ _ _
    rintro rfl
    exact Nat.lt_irrefl _ (E.kept c _ (.inl hp))
  | _ => rfl

/-- **A step of a call.** -/
theorem Sound.run (S : Sound s) (hfresh : s.Fresh) {u : T} {pc : Pc α} (hpc : s.threads u = pc) {s' : Sys T α}
    (h : pc.run s u = some s') : Sound s' := by
  have K := S.knows u
  have C := S.calls u
  have A := S.atomic
  have hphase : ∀ phase, pc.phase s.data = phase → (s.threads u).phase s.data = phase := by
    rw [hpc]
    exact fun _ h => h
  rw [hpc] at K C
  cases pc with
  | idle => cases h
  | alloc id x =>
    have hne : (s.pool.callers (some u)).pc ≠ .idle := by
      intro hq
      rw [Pc.Calls, hq] at C
      cases C
    simp only [Pc.run] at h
    split at h
    · rename_i p hq
      obtain rfl := Option.some.inj h
      have hgo : (s.pool.go (some u)).callers (some u) = ⟨.idle, p :: s.held (some u)⟩ := by
        rw [Sys.go_self, Caller.run, hq]
        rfl
      refine S.quiet hpc rfl (.step S.pool ⟨Sys.go_next hne, hfresh.1⟩) (fun c hc => Sys.go_callers hc) ?_ rfl
        (fun _ _ _ _ => rfl) (fun _ _ _ _ => rfl) ?_ (List.append_nil _) rfl rfl
      · show ((s.pool.go (some u)).callers (some u)).pc = .idle
        rw [hgo]
      · show p ∈ ((s.pool.go (some u)).callers (some u)).held
        rw [hgo]
        exact List.mem_cons_self
    · rename_i hq
      obtain rfl := Option.some.inj h
      refine S.inside hfresh hpc hne (S.construct_next rfl) ?_ trivial
      show ((s.pool.go (some u)).callers (some u)).pc.allocates = true
      rw [Sys.go_self]
      exact Pc.allocates_run _ C hq
  | set id x p =>
    obtain rfl := Option.some.inj h
    exact S.write hpc K (fun q hq => update_of_ne hq _ _) (fun _ _ => rfl) C K rfl rfl
  | storeData id x p =>
    obtain rfl := Option.some.inj h
    exact S.write hpc K (fun _ _ => rfl) (fun q hq => update_of_ne hq _ _) C ⟨K, update_self ..⟩ rfl rfl
  | loadTop id x p =>
    obtain rfl := Option.some.inj h
    exact S.read hpc C ⟨K.1, K.2, .refl _⟩ rfl rfl
  | storeNext id x p top =>
    obtain rfl := Option.some.inj h
    exact S.write hpc K.1 (fun q hq => update_of_ne hq _ _) (fun _ _ => rfl) C
      ⟨K.1, K.2.1, K.2.2, update_self ..⟩ rfl rfl
  | pushTop id x p top =>
    simp only [Pc.run] at h
    split at h
    · obtain rfl := Option.some.inj h
      exact S.push hfresh hpc ‹_›
    · obtain rfl := Option.some.inj h
      exact S.read hpc C ⟨K.1, K.2.1⟩ rfl rfl
  | countNode id x =>
    obtain rfl := Option.some.inj h
    have hret := A.ret (hphase (.effective id (.push x) .pushed) rfl)
    refine S.stay .idle rfl S.pool (fun _ _ => rfl) C rfl (fun _ _ _ _ => rfl) (fun _ _ _ _ => rfl) trivial
      hret ?_ ?_
    · exact congrArg _ (effects_same s.log rfl)
    · rw [hpc]
      show s.nodeCount + 1#32 + -1#32 = s.nodeCount + 0#32
      rw [add_assoc]
      rfl
  | reloadTop id =>
    simp only [Pc.run] at h
    split at h
    · obtain rfl := Option.some.inj h
      exact S.read hpc C ⟨.refl _, ‹_›⟩ rfl rfl
    · rename_i hnone
      obtain rfl := Option.some.inj h
      -- the stack is empty
      have hchain := S.chain
      rw [hnone] at hchain
      have hheld : s.held none = [] := by
        cases hl : s.held none with
        | nil => rfl
        | cons a l =>
          rw [hl] at hchain
          exact absurd hchain.1 (by simp)
      have hcontents := S.contents
      rw [hheld, List.map_nil] at hcontents
      have hcommit := A.commit .empty (hphase (.called id .pop) rfl) (by
        rw [show (stack α).init = [] from rfl, hcontents]
        rfl)
      refine S.stay (.empty id) rfl S.pool (fun _ _ => rfl) C rfl (fun _ _ _ _ => rfl) (fun _ _ _ _ => rfl)
        trivial hcommit ?_ (by rw [hpc]; rfl)
      show (stack α).run [] (effects (s.log ++ _)) = _
      rw [effects_append, Spec.run_append, hcontents]
      rfl
  | loadNext id top p =>
    obtain rfl := Option.some.inj h
    exact S.read hpc C ⟨K.1, K.2, fun _ => rfl⟩ rfl rfl
  | popTop id top p next =>
    simp only [Pc.run] at h
    split at h
    · obtain rfl := Option.some.inj h
      exact S.pop hfresh hpc ‹_›
    · obtain rfl := Option.some.inj h
      exact S.read hpc C trivial rfl rfl
  | discountNode id p =>
    obtain rfl := Option.some.inj h
    refine S.quiet hpc rfl S.pool (fun _ _ => rfl) C rfl (fun _ _ _ _ => rfl) (fun _ _ _ _ => rfl) K
      (List.append_nil _) rfl ?_
    show s.nodeCount - 1#32 + 1#32 = s.nodeCount + 0#32
    rw [sub_add_cancel]
    exact (add_zero _).symm
  | loadData id p =>
    obtain rfl := Option.some.inj h
    refine S.quiet hpc rfl (.step S.pool ⟨Sys.free_next C K, hfresh.1⟩) (fun c hc => update_of_ne hc _ _) ?_ rfl
      (fun _ _ _ _ => rfl) (fun _ _ _ _ => rfl) trivial (List.append_nil _) rfl rfl
    show (update s.pool.callers (some u) _ (some u)).pc.frees = true
    rw [update_self]
    rfl
  | free id x =>
    have hne : (s.pool.callers (some u)).pc ≠ .idle := by
      intro hq
      rw [Pc.Calls, hq] at C
      cases C
    have hpool : Reachable (LFObjectPool.fresh (Option T)) (s.pool.go (some u)) :=
      .step S.pool ⟨Sys.go_next hne, hfresh.1⟩
    simp only [Pc.run] at h
    split at h
    · rename_i hq
      obtain rfl := Option.some.inj h
      have hret := A.ret (hphase (.effective id .pop (.popped x)) rfl)
      refine S.stay .idle rfl hpool (fun c hc => Sys.go_callers hc) ?_ rfl (fun _ _ _ _ => rfl)
        (fun _ _ _ _ => rfl) trivial hret ?_ (by rw [hpc]; rfl)
      · show ((s.pool.go (some u)).callers (some u)).pc = .idle
        rw [Sys.go_self, Caller.run, hq]
        rfl
      · exact congrArg _ (effects_same s.log rfl)
    · rename_i hq
      obtain rfl := Option.some.inj h
      refine S.inside hfresh hpc hne (fun _ _ _ => rfl) ?_ trivial
      have hthrown := never_thrown hpool (some u)
      show ((s.pool.go (some u)).callers (some u)).pc.frees = true
      rw [Sys.go_self] at hthrown ⊢
      exact Pc.frees_run _ C hq hthrown
  | empty id =>
    obtain rfl := Option.some.inj h
    have hret := A.ret (hphase (.effective id .pop .empty) rfl)
    refine S.stay .idle rfl S.pool (fun _ _ => rfl) C rfl (fun _ _ _ _ => rfl) (fun _ _ _ _ => rfl) trivial
      hret ?_ (by rw [hpc]; rfl)
    exact congrArg _ (effects_same s.log rfl)

/-- **Every step.** -/
theorem Sound.step (S : Sound s) (hfresh : s.Fresh) {e : T × Act α} {s' : Sys T α}
    (h : LFStack.step s e = some s') : Sound s' := by
  obtain ⟨u, a⟩ := e
  cases a with
  | push x =>
    simp only [LFStack.step] at h
    split at h
    · rename_i hpc
      obtain rfl := Option.some.inj h
      have C := S.calls u
      rw [hpc] at C
      have hcall := S.atomic.call (t := u) (.push x) (by rw [hpc]; rfl)
      refine S.stay (.alloc s.log.length x) rfl (.step S.pool ⟨Sys.alloc_next C, hfresh.1⟩)
        (fun c hc => update_of_ne hc _ _) ?_ rfl (fun _ _ _ _ => rfl) (fun _ _ _ _ => rfl) trivial hcall ?_
        (by rw [hpc]; rfl)
      · show (update s.pool.callers (some u) _ (some u)).pc.allocates = true
        rw [update_self]
        rfl
      · exact congrArg _ (effects_same s.log rfl)
    · cases h
  | pop =>
    simp only [LFStack.step] at h
    split at h
    · rename_i hpc
      obtain rfl := Option.some.inj h
      have C := S.calls u
      rw [hpc] at C
      have hcall := S.atomic.call (t := u) .pop (by rw [hpc]; rfl)
      refine S.stay (.reloadTop s.log.length) rfl S.pool (fun _ _ => rfl) C rfl (fun _ _ _ _ => rfl)
        (fun _ _ _ _ => rfl) trivial hcall ?_ (by rw [hpc]; rfl)
      exact congrArg _ (effects_same s.log rfl)
    · cases h
  | go => exact S.run hfresh rfl h

end

/-! ## Every run -/

theorem sound_new [Fintype T] (before : Pool) (next : Nat → Option Nat) (data : Nat → α) :
    Sound (Sys.new before next data : Sys T α) where
  pool := .start ⟨before, 0, true, rfl⟩
  calls t := rfl
  chain := rfl
  knows t := trivial
  atomic := .nil
  contents := rfl
  count := by
    show 0#32 = BitVec.ofNat 32 0 + ∑ t : T, (0#32 : BitVec 32)
    rw [show ∑ t : T, (0#32 : BitVec 32) = 0#32 from Finset.sum_eq_zero fun _ _ => rfl]
    rfl

/-- **Every run.** -/
theorem sound [Fintype T] {s : Sys T α} (h : Reachable (fresh T α) s) : Sound s := by
  refine h.invariant (I := Sound) (fun s h0 => ?_) fun s s' _ S hn => ?_
  · obtain ⟨before, next, data, rfl⟩ := h0
    exact sound_new before next data
  · obtain ⟨⟨e, he⟩, hfresh⟩ := hn
    exact S.step hfresh he

theorem WasEmpty.step {s s' : Sys T α} {t : T} {id : Nat} (h : WasEmpty s t id) (hn : (fresh T α).next s s') :
    WasEmpty s' t id := by
  obtain ⟨s₀, hr, ha, hrest⟩ := h
  exact ⟨s₀, hr, .step ha hn, hrest⟩

instance decidableFresh (now : Stamped (Option Nat)) : (pc : Pc α) → Decidable (pc.Fresh now)
  | .storeNext _ _ _ top | .pushTop _ _ _ top | .loadNext _ top _ | .popTop _ top _ _ =>
    inferInstanceAs (Decidable (now.count < top.count + 131072))
  | .idle | .alloc _ _ | .set _ _ _ | .storeData _ _ _ | .loadTop _ _ _ | .countNode _ _ | .reloadTop _
  | .discountNode _ _ | .loadData _ _ | .free _ _ | .empty _ => .isTrue trivial

instance [Fintype T] (s : Sys T α) : Decidable s.Fresh :=
  inferInstanceAs (Decidable (_ ∧ ∀ t, (s.threads t).Fresh s.topStamp))

/-- A step, if no copy is too old. -/
def freshStep [Fintype T] (s : Sys T α) : T × Act α → Option (Sys T α) := gate step (fun s _ => decide s.Fresh) s

theorem fresh_next [Fintype T] (s : Sys T α) (e : T × Act α) (s' : Sys T α) (h : freshStep s e = some s') :
    (fresh T α).next s s' :=
  next_of_decide (M := system T α) (fun _ e _ he => ⟨e, he⟩) s e s' h

/-- `n` operations of thread `t`. -/
def go (t : T) (n : Nat) : List (T × Act α) := List.replicate n (t, .go)

end JunCore.LFStack
