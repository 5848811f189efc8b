/-
  What goes out of a session, and in which order.

  Whoever has the right to send is the only one to touch the batch, `send_packet_arr_` and
  `send_packet_count_`, and the only one to take from `send_q_`.  So at each place it can say where all
  packets are that ever entered the queue (`Fit`); the other threads only append to the queue and
  raise its counter (`Outbox.Grows`), and that changes nothing of it.  The right is handed on to the
  `WSASend` and from there to the worker that handles its completion, and so is what can be said
  (`Stream`).
-/
import JunCore.Network.SendSteps

set_option linter.unusedVariables false
set_option linter.unusedSectionVars false

namespace JunCore.SessionSteps

open Function Transition Network Counting

/-! ## The batch -/

/-- The array with these entries, and nothing behind them. -/
def slots (wsa : List (Option Buffer)) (i : Nat) : Option Buffer := wsa[i]?.join

theorem slots_snoc (wsa : List (Option Buffer)) (b : Buffer) :
    update (slots wsa) wsa.length (some b) = slots (wsa ++ [some b]) := by
  funext i
  by_cases hi : i = wsa.length
  · subst hi
    rw [update_self]
    simp [slots]
  · rw [update_of_ne hi]
    unfold slots
    rcases Nat.lt_or_ge i wsa.length with hlt | hge
    · rw [List.getElem?_append_left hlt]
    · have hlen : (wsa ++ [some b]).length ≤ i := by
        rw [List.length_append, List.length_singleton]
        omega
      rw [List.getElem?_eq_none hge, List.getElem?_eq_none hlen]

theorem slots_clear (i : Nat) (w : Option Buffer) (wsa : List (Option Buffer)) :
    update (slots (List.replicate i none ++ w :: wsa)) i none
      = slots (List.replicate (i + 1) none ++ wsa) := by
  have hset : (List.replicate i none ++ w :: wsa).set i none = List.replicate (i + 1) none ++ wsa := by
    have hi := List.length_replicate (n := i) (a := (none : Option Buffer))
    rw [List.set_append_right (h := hi.le), hi, Nat.sub_self, List.set_cons_zero,
      List.replicate_succ', List.append_assoc]
    rfl
  funext j
  rw [← hset]
  by_cases hj : j = i
  · subst hj
    rw [update_self]
    unfold slots
    rw [List.getElem?_set_self (by simp)]
    rfl
  · rw [update_of_ne hj]
    unfold slots
    rw [List.getElem?_set_ne (Ne.symm hj)]

theorem slots_replicate (n : Nat) : slots (List.replicate n none) = slots [] := by
  funext i
  unfold slots
  rw [List.getElem?_replicate]
  split <;> rfl

/-- Where everything is: what entered the queue was handed to `WSASend`, or is in `rest`, or is still
    in the queue; the array has these entries, and the count is this. -/
structure Outbox.Has (o : Outbox) (rest wsa : List (Option Buffer)) (n : Nat) : Prop where
  accounts : o.entered.map some = o.handed ++ rest ++ o.sendQ.items.map some
  arr : o.arr = slots wsa
  count : o.count = n

/-- Others have put packets into the queue, and counted some. -/
structure Outbox.Grows (o o' : Outbox) : Prop where
  flag : o'.sendFlag = o.sendFlag
  arr : o'.arr = o.arr
  count : o'.count = o.count
  handed : o'.handed = o.handed
  queue : ∃ l, o'.entered = o.entered ++ l ∧ o'.sendQ.items = o.sendQ.items ++ l
  nodeCount : o.sendQ.nodeCount ≤ o'.sendQ.nodeCount

namespace Outbox

variable {o o' : Outbox} {rest wsa : List (Option Buffer)} {n : Nat}

theorem Grows.refl (o : Outbox) : Grows o o where
  flag := rfl
  arr := rfl
  count := rfl
  handed := rfl
  queue := ⟨[], (List.append_nil _).symm, (List.append_nil _).symm⟩
  nodeCount := Int.le_refl _

theorem Has.grow (H : o.Has rest wsa n) (G : o.Grows o') : o'.Has rest wsa n := by
  obtain ⟨l, hentered, hitems⟩ := G.queue
  refine ⟨?_, G.arr.trans H.arr, G.count.trans H.count⟩
  rw [hentered, hitems, G.handed, List.map_append, List.map_append, H.accounts, List.append_assoc]

/-- What was handed over is the front of what entered. -/
theorem Has.handed (H : o.Has rest wsa n) : o.handed <+: o.entered.map some := by
  rw [H.accounts, List.append_assoc]
  exact ⟨_, rfl⟩

end Outbox

/-! ## Each place -/

/-- What is known in `SendAsync`. -/
def Outbox.FitAsync (o : Outbox) : SendPc → Prop
  | .cas | .reloadCount | .cancel => True
  | .loadCount | .storeFalse | .overflow => o.Has [] [] 0
  | .loadSize => o.Has [] [] 0 ∧ 0 < o.sendQ.nodeCount
  | .loop wsa => o.Has wsa wsa 0 ∧ (wsa = [] → 0 < o.sendQ.nodeCount)
  | .dequeue wsa => o.Has wsa wsa 0 ∧ 0 < o.sendQ.nodeCount
  | .unlink wsa => o.Has wsa wsa 0
  | .commit wsa => o.Has wsa wsa 0 ∧ wsa ≠ []
  | .post wsa => o.Has wsa wsa wsa.length
  | .postZero _ wsa => o.Has [] wsa wsa.length
  -- nobody gets there
  | .dequeueFail _ | .noPacket => False

/-- What is known at each place. -/
def Outbox.Fit (o : Outbox) : Phase → Prop
  | .async pc => o.FitAsync pc
  | .delete i => ∃ wsa, o.Has [] (List.replicate i none ++ wsa) (i + wsa.length)
  | .clearCount => ∃ n, o.Has [] [] n
  | .clearFlag => o.Has [] [] 0
  | _ => True

/-- The places that have the right to send. -/
def Phase.owns : Phase → Bool
  | .async .cas | .async .reloadCount | .async .cancel => false
  | .async _ | .delete _ | .clearCount | .clearFlag | .lost => true
  | _ => false

/-- The places in `Set`. -/
def Phase.sets : Phase → Bool
  | .set | .drain _ => true
  | _ => false

theorem Outbox.Fit.of_owns {p : Phase} (h : p.owns = false) (o : Outbox) : o.Fit p := by
  cases p with
  | async pc =>
    cases pc with
    | cas | reloadCount | cancel => trivial
    | _ => cases h
  | delete i | clearCount | clearFlag | lost => cases h
  | _ => trivial

theorem Outbox.Fit.grow {o o' : Outbox} {p : Phase} (F : o.Fit p) (G : o.Grows o') : o'.Fit p := by
  have hlt : 0 < o.sendQ.nodeCount → 0 < o'.sendQ.nodeCount := fun h => Int.lt_of_lt_of_le h G.nodeCount
  cases p with
  | async pc =>
    cases pc with
    | cas | reloadCount | cancel => trivial
    | loadCount | storeFalse | overflow => exact Has.grow F G
    | unlink wsa | post wsa | postZero id wsa => exact Has.grow F G
    | loadSize | dequeue wsa => exact ⟨F.1.grow G, hlt F.2⟩
    | loop wsa => exact ⟨F.1.grow G, fun h => hlt (F.2 h)⟩
    | commit wsa => exact ⟨F.1.grow G, F.2⟩
    | dequeueFail wsa | noPacket => exact F
  | delete i =>
    obtain ⟨wsa, H⟩ := F
    exact ⟨wsa, H.grow G⟩
  | clearCount =>
    obtain ⟨n, H⟩ := F
    exact ⟨n, H.grow G⟩
  | clearFlag => exact Has.grow F G
  | _ => trivial

/-- A task has the right to send at these places, and at no others. -/
theorem sends_owns (o : Option Task) :
    weigh Task.sends o = if (phaseOf o).owns then 1 else 0 := by
  cases o with
  | none => rfl
  | some task =>
    cases task with
    | post e pc => cases pc <;> rfl
    | sendPacket pc =>
      cases pc with
      | sendAsync pc => cases pc <;> rfl
      | _ => rfl
    | recv id pc =>
      cases pc with
      | recvAsync pc => cases pc <;> rfl
      | _ => rfl
    | send id pc =>
      cases pc with
      | sendAsync pc => cases pc <;> rfl
      | _ => rfl
    | accept id pc =>
      cases pc with
      | recvAsync pc => cases pc <;> rfl
      | _ => rfl
    | connect id pc =>
      cases pc with
      | recvAsync pc => cases pc <;> rfl
      | _ => rfl
    | delete id lost =>
      cases lost with
      | none => rfl
      | some k => cases k <;> rfl
    | destroy pc => cases pc <;> rfl
    | disconnect pc | unlock => rfl

theorem owns_sends {o : Option Task} (h : (phaseOf o).owns = true) : 0 < weigh Task.sends o := by
  rw [sends_owns, if_pos h]
  exact Nat.one_pos

/-! ## Each step -/

/-- What a task says at the place to which `SendAsync` takes it. -/
theorem sendAsync_fits (ok : Bool) {c : Cell} {pc : SendPc} (F : c.outbox.FitAsync pc)
    (hrest : pc = .cas → c.sendFlag = false → c.outbox.Has [] [] 0) :
    (sendAsync ok c pc).1.outbox.Fit (Phase.inside .async (sendAsync ok c pc).2) := by
  cases pc with
  | cas =>
    cases hflag : c.sendFlag with
    | true =>
      simp only [sendAsync, hflag]
      trivial
    | false =>
      obtain ⟨haccounts, harr, hcount⟩ := hrest rfl hflag
      simp only [sendAsync, hflag]
      exact ⟨haccounts, harr, hcount⟩
  | loadCount =>
    simp only [sendAsync]
    split
    · rename_i hpos
      exact ⟨F, hpos⟩
    · exact F
  | storeFalse => trivial
  | reloadCount =>
    simp only [sendAsync]
    split <;> trivial
  | loadSize =>
    simp only [sendAsync]
    split
    · exact F.1
    · exact ⟨F.1, fun _ => F.2⟩
  | overflow =>
    show Outbox.Fit _ (Phase.inside Phase.async (if c.casPending.2 then _ else _))
    split <;> trivial
  | noPacket => exact F.elim
  | loop wsa =>
    simp only [sendAsync]
    split
    · rename_i hmore
      exact ⟨F.1, hmore.2⟩
    · rename_i hdone
      refine ⟨F.1, fun hnil => hdone ⟨?_, F.2 hnil⟩⟩
      rw [hnil]
      decide
  | dequeue wsa =>
    obtain ⟨H, hpos⟩ := F
    have hnonneg : ¬ c.sendQ.decrement.nodeCount < 0 := by
      have hpos : 0 < c.sendQ.nodeCount := hpos
      rw [LFQueue.decrement_nodeCount]
      omega
    simp only [sendAsync, if_neg hnonneg]
    exact ⟨H.accounts, H.arr, H.count⟩
  | dequeueFail wsa => exact F.elim
  | unlink wsa =>
    obtain ⟨haccounts, harr, hcount⟩ := F
    cases hitems : c.sendQ.items with
    | nil =>
      simp only [sendAsync, hitems]
      exact ⟨haccounts, harr, hcount⟩
    | cons b l =>
      simp only [sendAsync, hitems]
      refine ⟨⟨?_, ?_, hcount⟩, fun h => by simp at h⟩
      · show c.entered.map some = c.handed ++ (wsa ++ [some b]) ++ c.sendQ.items.tail.map some
        have haccounts : c.entered.map some = c.handed ++ wsa ++ c.sendQ.items.map some := haccounts
        rw [haccounts, hitems]
        simp
      · show update c.sendPacketArr wsa.length (some b) = _
        have harr : c.sendPacketArr = slots wsa := harr
        rw [harr, slots_snoc]
  | commit wsa =>
    obtain ⟨⟨haccounts, harr, hcount⟩, hne⟩ := F
    simp only [sendAsync, if_neg hne]
    exact ⟨haccounts, harr, rfl⟩
  | cancel => trivial
  | post wsa =>
    obtain ⟨haccounts, harr, hcount⟩ := F
    cases ok with
    | true => trivial
    | false =>
      refine ⟨?_, harr, hcount⟩
      show c.entered.map some = c.handed ++ wsa ++ [] ++ c.sendQ.items.map some
      rw [List.append_nil]
      exact haccounts
  | postZero id wsa => trivial

/-- What is known at the place a step comes from leads to what is known where it goes. -/
theorem SendStep.fits {ok : Bool} {c : Cell} {p p' : Phase} {o' : Outbox}
    (h : SendStep ok c p o' p') (F : c.outbox.Fit p)
    (hrest : p = .async .cas → c.sendFlag = false → c.outbox.Has [] [] 0) : o'.Fit p' := by
  cases h with
  | idle hstarts =>
    cases p' with
    | idle | link b | set => trivial
    | _ => cases hstarts
  | pend | link b | count | clearFlag | lost | set => trivial
  | async pc => exact sendAsync_fits ok F fun heq => hrest (congrArg Phase.async heq)
  | @delete i hlt =>
    obtain ⟨wsa, haccounts, harr, hcount⟩ := F
    have harr : c.sendPacketArr = slots (List.replicate i none ++ wsa) := harr
    have hcount : c.sendPacketCount = i + wsa.length := hcount
    cases wsa with
    | nil =>
      rw [hcount] at hlt
      exact absurd hlt (Nat.lt_irrefl i)
    | cons w wsa =>
      refine ⟨wsa, haccounts, ?_, ?_⟩
      · show update c.sendPacketArr i none = _
        rw [harr, slots_clear]
      · show c.sendPacketCount = _
        rw [hcount, List.length_cons]
        omega
  | @deleted i hge =>
    obtain ⟨wsa, haccounts, harr, hcount⟩ := F
    have hcount : c.sendPacketCount = i + wsa.length := hcount
    have hnil : wsa = [] := List.length_eq_zero_iff.mp (by omega)
    rw [hnil, List.append_nil, slots_replicate] at harr
    exact ⟨_, haccounts, harr, hcount⟩
  | clearCount =>
    obtain ⟨n, haccounts, harr, -⟩ := F
    exact ⟨haccounts, harr, rfl⟩
  | loadPending | loadCount => split <;> trivial
  | drain pc =>
    cases (SessionSteps.drain c pc).2 <;> trivial

/-- The steps of the others. -/
theorem SendStep.grows {ok : Bool} {c : Cell} {p p' : Phase} {o' : Outbox}
    (h : SendStep ok c p o' p') (howns : p.owns = false) (hsets : p.sets = false) :
    c.outbox.Grows o' ∨ c.sendFlag = false ∧ o' = { c.outbox with sendFlag := true } := by
  cases h with
  | idle _ | loadPending | loadCount => exact .inl (.refl _)
  | pend => exact .inl ⟨rfl, rfl, rfl, rfl, ⟨[], (List.append_nil _).symm, (List.append_nil _).symm⟩,
      Int.le_refl _⟩
  | link b =>
    exact .inl ⟨rfl, rfl, rfl, rfl, ⟨[b], rfl, rfl⟩, Int.le_refl _⟩
  | count =>
    refine .inl ⟨rfl, rfl, rfl, rfl, ⟨[], ?_, ?_⟩, ?_⟩
    · exact (List.append_nil _).symm
    · exact (List.append_nil _).symm
    · show c.sendQ.nodeCount ≤ c.sendQ.nodeCount + 1
      omega
  | async pc =>
    cases pc with
    | cas =>
      cases hflag : c.sendFlag with
      | true =>
        simp only [sendAsync, hflag]
        exact .inl (.refl _)
      | false =>
        simp only [sendAsync, hflag]
        exact .inr ⟨trivial, rfl⟩
    | reloadCount | cancel => exact .inl (.refl _)
    | _ => cases howns
  | delete _ | deleted _ | clearCount | clearFlag | lost => cases howns
  | set | drain pc => cases hsets

/-- Whoever clears the flag leaves nothing behind. -/
theorem SendStep.rests {ok : Bool} {c : Cell} {p p' : Phase} {o' : Outbox}
    (h : SendStep ok c p o' p') (F : c.outbox.Fit p) (hsets : p.sets = false)
    (howner : p.owns = true → c.sendFlag = true)
    (hrest : c.sendFlag = false → c.outbox.Has [] [] 0) (hflag : o'.sendFlag = false) :
    o'.Has [] [] 0 := by
  cases howns : p.owns with
  | false =>
    rcases h.grows howns hsets with G | ⟨-, rfl⟩
    · exact (hrest (G.flag.symm.trans hflag)).grow G
    · cases hflag
  | true =>
    have hset := howner howns
    have hkept : c.sendFlag = false → o'.Has [] [] 0 := by
      intro hclear
      rw [hset] at hclear
      cases hclear
    cases h with
    | async pc =>
      cases pc with
      | storeFalse => exact ⟨F.accounts, F.arr, F.count⟩
      | cas | reloadCount | cancel => cases howns
      | overflow => exact hkept ((congrArg Outbox.sendFlag (casPending_outbox c)).symm.trans hflag)
      | noPacket | dequeueFail wsa => exact F.elim
      | unlink wsa | commit wsa =>
        refine hkept (Eq.trans ?_ hflag)
        simp only [sendAsync]
        split <;> rfl
      | _ => exact hkept hflag
    | clearFlag => exact ⟨F.accounts, F.arr, F.count⟩
    | delete _ | deleted _ | clearCount | lost => exact hkept hflag
    | _ => cases howns

/-- What a `WSASend` in progress is about. -/
theorem SendStep.posts {c : Cell} {wsa : List (Option Buffer)} {p' : Phase} {o' : Outbox}
    (h : SendStep true c (.async (.post wsa)) o' p') (F : c.outbox.Fit (.async (.post wsa))) :
    o'.Has [] wsa wsa.length := by
  obtain ⟨haccounts, harr, hcount⟩ := F
  cases h
  refine ⟨?_, harr, hcount⟩
  show c.entered.map some = c.handed ++ wsa ++ [] ++ c.sendQ.items.map some
  rw [List.append_nil]
  exact haccounts

theorem SendStep.postsZero {ok : Bool} {c : Cell} {id : Nat} {wsa : List (Option Buffer)}
    {p' : Phase} {o' : Outbox} (h : SendStep ok c (.async (.postZero id wsa)) o' p')
    (F : c.outbox.Fit (.async (.postZero id wsa))) : o'.Has [] wsa wsa.length := by
  cases h
  exact ⟨F.accounts, F.arr, F.count⟩

/-- Every step leaves what was handed over the front of what entered. -/
theorem SendStep.handed {ok : Bool} {c : Cell} {p p' : Phase} {o' : Outbox}
    (h : SendStep ok c p o' p') (F : c.outbox.Fit p) (hpre : c.handed <+: c.entered.map some) :
    o'.handed <+: o'.entered.map some := by
  cases h with
  | link b =>
    show c.handed <+: (c.entered ++ [b]).map some
    rw [List.map_append]
    exact hpre.trans ⟨_, rfl⟩
  | async pc =>
    cases pc with
    | post wsa =>
      obtain ⟨haccounts, -, -⟩ := F
      have haccounts : c.entered.map some = c.handed ++ wsa ++ c.sendQ.items.map some := haccounts
      show c.handed ++ wsa <+: c.entered.map some
      rw [haccounts]
      exact ⟨_, rfl⟩
    | cas | unlink wsa | commit wsa =>
      simp only [sendAsync]
      split <;> exact hpre
    | overflow | noPacket =>
      have hout := casPending_outbox c
      show c.casPending.1.outbox.handed <+: c.casPending.1.outbox.entered.map some
      rw [hout]
      exact hpre
    | _ => exact hpre
  | drain pc =>
    cases pc with
    | unlink =>
      simp only [SessionSteps.drain]
      split <;> exact hpre
    | dequeue | dequeueFail => exact hpre
  | _ => exact hpre

/-! ## Each run -/

variable {T : Type} [DecidableEq T] [Fintype T]

/-- **The send stream of a session**: what is known where somebody has the right to send, in a
    `WSASend`, and while nobody has it. -/
structure Stream (s : Sys T) : Prop where
  tasks : ∀ t, s.cell.outbox.Fit (phaseOf (s.tasks t))
  ops : ∀ op ∈ s.cell.ops, op.operation = .send →
    s.cell.outbox.Has [] op.wsaBuf op.wsaBuf.length
  resting : 0 < s.cell.refs → s.cell.sendFlag = false → s.cell.outbox.Has [] [] 0
  handed : s.cell.handed <+: s.cell.entered.map some

theorem Blank.has {c : Cell} (B : Blank c) : c.outbox.Has [] [] 0 where
  accounts := by
    show c.entered.map some = c.handed ++ [] ++ c.sendQ.items.map some
    rw [B.entered, B.handed, B.items]
    rfl
  arr := funext B.arr
  count := B.count

theorem Blank.stream {s : Sys T} (B : Blank s.cell)
    (hlate : ∀ t, isTask Task.late (s.tasks t) = false) : Stream s where
  tasks t := by
    have htask := hlate t
    cases h : s.tasks t with
    | none => trivial
    | some task =>
      rw [h] at htask
      cases task with
      | sendPacket pc | send id pc => cases htask
      | accept id pc => cases pc <;> trivial
      | connect id pc => cases pc <;> trivial
      | destroy pc => cases pc <;> trivial
      | delete id lost =>
        cases lost with
        | none => trivial
        | some k => cases k <;> trivial
      | _ => trivial
  ops op hop hsend := absurd hsend (B.ops op hop)
  resting _ _ := B.has
  handed := by
    rw [B.handed]
    exact ⟨_, rfl⟩

/-- While a `WSASend` is outstanding, the flag is set. -/
theorem Laws.flag_of_op {s : Sys T} (L : Laws s) {op : Op} (hop : op ∈ s.cell.ops)
    (hsend : op.operation = .send) : s.cell.sendFlag = true := by
  have hone : lostSends (some op.operation)
      ≤ (s.cell.ops.map fun op => lostSends (some op.operation)).sum :=
    List.le_sum_of_mem (List.mem_map_of_mem (f := fun op => lostSends (some op.operation)) hop)
  rw [hsend] at hone
  have hone : 1 ≤ (s.cell.ops.map fun op => lostSends (some op.operation)).sum := hone
  have hlaw := L.sends
  cases hflag : s.cell.sendFlag with
  | true => rfl
  | false =>
    rw [hflag] at hlaw
    have hlaw : 0 = _ := hlaw
    omega

/-- And so it is while a thread has the right to send. -/
theorem Laws.flag_of_owns {s : Sys T} (L : Laws s) {t : T}
    (h : (phaseOf (s.tasks t)).owns = true) : s.cell.sendFlag = true := by
  have hpos := owns_sends h
  cases htask : s.tasks t with
  | none =>
    rw [htask] at h
    cases h
  | some task =>
    rw [htask] at hpos
    have hle := L.sends_le htask
    have hpos : 0 < task.sends := hpos
    cases hflag : s.cell.sendFlag with
    | true => rfl
    | false =>
      rw [hflag] at hle
      exact absurd (Nat.lt_of_lt_of_le hpos hle) (Nat.lt_irrefl 0)

/-- There is nobody else with the right to send. -/
theorem Laws.sole_owner {s : Sys T} (L : Laws s) {t : T} (h : (phaseOf (s.tasks t)).owns = true) :
    (∀ op ∈ s.cell.ops, op.operation ≠ .send) ∧
      ∀ u, u ≠ t → (phaseOf (s.tasks u)).owns = false := by
  have hpos := owns_sends h
  cases htask : s.tasks t with
  | none =>
    rw [htask] at h
    cases h
  | some task =>
    rw [htask] at hpos
    obtain ⟨hops, -, hothers⟩ := L.sole_sender htask hpos
    refine ⟨fun op hop hsend => ?_, fun u hu => ?_⟩
    · have hzero := hops op hop
      rw [hsend] at hzero
      cases hzero
    · cases howns : (phaseOf (s.tasks u)).owns with
      | false => rfl
      | true =>
        have hpos := owns_sends howns
        rw [hothers u hu] at hpos
        exact absurd hpos (Nat.lt_irrefl 0)

theorem publishes_sets {task : Task} (h : task.phase.sets = true) : task.publishes = false := by
  cases task with
  | recv id pc => cases h
  | accept id pc =>
    cases pc with
    | callback => cases h
    | _ => rfl
  | connect id pc =>
    cases pc with
    | callback => cases h
    | _ => rfl
  | _ => rfl

/-- `Set` runs before there is anything to send, or in the destructor. -/
theorem setting {s : Sys T} (hr : Reachable system s) {t : T} {task : Task}
    (ht : s.tasks t = some task) (hsets : task.phase.sets = true) : (∃ pc, task = .destroy pc) ∨
      s.cell.published = false ∧ ∀ ok, (task.run ok s.cell).1.published = false := by
  cases hpub : s.cell.published with
  | false =>
    refine .inr ⟨rfl, fun ok => ?_⟩
    rcases run_published ok s.cell task with heq | ⟨-, hpublishes⟩
    · rw [heq, hpub]
    · rw [publishes_sets hsets] at hpublishes
      cases hpublishes
  | true =>
    have hearly := ((lawful hr).2 (.inl hpub)).tasks t
    rw [ht] at hearly
    left
    cases task with
    | destroy pc => exact ⟨pc, rfl⟩
    | accept id pc =>
      cases pc with
      | set | drain pc => cases hearly
      | _ => cases hsets
    | connect id pc =>
      cases pc with
      | set | drain pc => cases hearly
      | _ => cases hsets
    | sendPacket pc => cases pc <;> cases hsets
    | send id pc => cases pc <;> cases hsets
    | delete id lost =>
      cases lost with
      | none => cases hsets
      | some k => cases k <;> cases hsets
    | _ => cases hsets

theorem phase_async_iff {task : Task} {pc : SendPc} :
    task.phase = .async pc ↔ task.asyncPc = some pc := by
  have hiff : ∀ pc', Phase.async pc' = .async pc ↔ some pc' = some pc := by
    intro pc'
    rw [Phase.async.injEq, Option.some.injEq]
  cases task with
  | sendPacket pc' =>
    cases pc' with
    | sendAsync pc' => exact hiff pc'
    | _ => constructor <;> (intro h; cases h)
  | send id pc' =>
    cases pc' with
    | sendAsync pc' => exact hiff pc'
    | _ => constructor <;> (intro h; cases h)
  | delete id lost =>
    cases lost with
    | none => constructor <;> (intro h; cases h)
    | some k => cases k <;> constructor <;> (intro h; cases h)
  | accept id pc' | connect id pc' | destroy pc' =>
    cases pc' <;> constructor <;> (intro h; cases h)
  | post e pc' | disconnect pc' | recv id pc' | unlock =>
    constructor <;> (intro h; cases h)

/-- A `WSASend` in the system is an old one, or it was posted just now. -/
theorem run_send_op {ok : Bool} {c : Cell} {task : Task} {op : Op} (hop : op ∈ (task.run ok c).1.ops)
    (hsend : op.operation = .send) :
    (∃ o ∈ c.ops, o.operation = .send ∧ o.wsaBuf = op.wsaBuf) ∨
    (ok = true ∧ task.phase = .async (.post op.wsaBuf)) ∨
      ∃ id, task.phase = .async (.postZero id op.wsaBuf) := by
  rcases run_op hop with ⟨o, ho, hkind, hwsa⟩ | ⟨-, hpc⟩ | ⟨hkind, -⟩ | ⟨e, id, -, hkind⟩
  · exact .inl ⟨o, ho, hkind.trans hsend, hwsa⟩
  · rcases hpc with ⟨hok, hpc⟩ | ⟨id, hpc⟩
    · exact .inr (.inl ⟨hok, phase_async_iff.mpr hpc⟩)
    · exact .inr (.inr ⟨id, phase_async_iff.mpr hpc⟩)
  · rw [hsend] at hkind
    cases hkind
  · rw [hsend] at hkind
    cases e <;> cases hkind

/-- **A step of a task, outside `Set`.** -/
theorem Stream.run {s : Sys T} (S : Stream s) (L : Laws s) {t : T} {task : Task}
    (ht : s.tasks t = some task) (ok : Bool) (hsets : task.phase.sets = false) :
    Stream (s.after t (task.run ok s.cell)) := by
  have hstep := run_sendStep ok s.cell task
  have hphase : phaseOf (s.tasks t) = task.phase := by
    rw [ht]
    rfl
  have F : s.cell.outbox.Fit task.phase := hphase ▸ S.tasks t
  have F' : (task.run ok s.cell).1.outbox.Fit (phaseOf (task.run ok s.cell).2) := by
    refine hstep.fits F fun hcas hflag => S.resting (Nat.pos_of_ne_zero fun hzero => ?_) hflag
    obtain ⟨pc, rfl⟩ := (L.unreferenced hzero).2 t task ht
    cases pc <;> cases hcas
  -- as long as somebody else has the right to send, this one has not
  have hothers : s.cell.sendFlag = true → task.phase.owns = false →
      s.cell.outbox.Grows (task.run ok s.cell).1.outbox := by
    intro hflag howns
    rcases hstep.grows howns hsets with G | ⟨hclear, -⟩
    · exact G
    · rw [hflag] at hclear
      cases hclear
  refine ⟨fun u => ?_, fun op hop hsend => ?_, fun hrefs hflag => ?_, hstep.handed F S.handed⟩
  · refine Sys.forall_after (P := fun o => (task.run ok s.cell).1.outbox.Fit (phaseOf o)) F'
      (fun u hu => ?_) u
    cases howns : (phaseOf (s.tasks u)).owns with
    | false => exact .of_owns howns _
    | true =>
      have hme := (L.sole_owner howns).2 t (Ne.symm hu)
      rw [hphase] at hme
      exact (S.tasks u).grow (hothers (L.flag_of_owns howns) hme)
  · show (task.run ok s.cell).1.outbox.Has [] op.wsaBuf op.wsaBuf.length
    rcases run_send_op hop hsend with ⟨o, ho, hosend, hwsa⟩ | ⟨rfl, hpost⟩ | ⟨id, hpost⟩
    · rw [← hwsa]
      refine (S.ops o ho hosend).grow (hothers (L.flag_of_op ho hosend) ?_)
      cases howns : task.phase.owns with
      | false => rfl
      | true =>
        rw [← hphase] at howns
        exact absurd hosend ((L.sole_owner howns).1 o ho)
    · exact (hpost ▸ hstep).posts (hpost ▸ F)
    · exact (hpost ▸ hstep).postsZero (hpost ▸ F)
  · have howner : task.phase.owns = true → s.cell.sendFlag = true := by
      rw [← hphase]
      exact L.flag_of_owns
    exact hstep.rests F hsets howner (S.resting (L.refs_run ht hrefs)) hflag

/-- A step of the destructor. -/
theorem Stream.destroy {s : Sys T} (S : Stream s) (L : Laws s) {t : T} {pc : DestroyPc}
    (ht : s.tasks t = some (.destroy pc)) (ok : Bool) :
    Stream (s.after t ((Task.destroy pc).run ok s.cell)) := by
  have hstep := run_sendStep ok s.cell (.destroy pc)
  obtain ⟨hrefs, -, hothers⟩ := L.destroying ht
  have F : s.cell.outbox.Fit (Task.destroy pc).phase := by
    have F := S.tasks t
    rwa [ht] at F
  refine ⟨fun u => ?_, fun op hop hsend => ?_, fun hpos _ => ?_, hstep.handed F S.handed⟩
  · refine Sys.forall_after
      (P := fun o => ((Task.destroy pc).run ok s.cell).1.outbox.Fit (phaseOf o)) ?_ (fun u hu => ?_) u
    · refine hstep.fits F fun hcas => ?_
      cases pc <;> cases hcas
    · rw [hothers u hu]
      trivial
  · rcases run_send_op hop hsend with ⟨o, ho, -⟩ | ⟨-, hpost⟩ | ⟨id, hpost⟩
    · rw [(L.unreferenced hrefs).1] at ho
      exact absurd ho List.not_mem_nil
    · cases pc <;> cases hpost
    · cases pc <;> cases hpost
  · have := L.refs_run ht hpos
    omega

/-- **The rule for the send stream.** -/
theorem streaming {s : Sys T} (h : Reachable system s) : Stream s := by
  apply h.invariant (I := Stream)
  · rintro _ ⟨e, mem, b, hb, t, rfl⟩
    have hr : Reachable system (Sys.new e (.new mem b hb) t) := .start ⟨e, mem, b, hb, t, rfl⟩
    obtain ⟨B, hlate⟩ := blank_reachable hr rfl
    exact B.stream hlate
  · intro s s' hr S hnext
    obtain ⟨L, -⟩ := lawful hr
    have hr' : Reachable system s' := .step hr hnext
    rcases step_does hnext with ⟨t, r, hdoes, rfl⟩ | ⟨op, chunk, hmem, hdone, hroom, rfl⟩
    · have hkeep := fun P => Sys.forall_after (s := s) (t := t) (r := r) (P := P)
      generalize hpre : s.tasks t = pre at hdoes
      cases hdoes with
      | sendPacket m hpub hrefs | disconnect hpub hrefs =>
        refine ⟨?_, S.ops, fun _ => S.resting hrefs, S.handed⟩
        exact hkeep (fun o => s.cell.outbox.Fit (phaseOf o)) trivial fun u _ => S.tasks u
      | @take op n hmem hdone =>
        refine ⟨?_, fun o ho => S.ops o (List.mem_of_mem_erase ho), S.resting, S.handed⟩
        refine hkeep (fun o => s.cell.outbox.Fit (phaseOf o)) ?_ fun u _ => S.tasks u
        have H := S.ops op hmem
        obtain ⟨id, operation, wsa, room, done⟩ := op
        cases operation with
        | recv =>
          show s.cell.outbox.Fit (Task.phase (if n = 0 then _ else _))
          split <;> trivial
        | send =>
          show s.cell.outbox.Fit (Task.phase (if n = 0 then _ else _))
          split
          · trivial
          · refine ⟨wsa, ?_⟩
            rw [Nat.zero_add]
            exact H rfl
        | accept | connect => trivial
      | run task ok =>
        cases hsets : task.phase.sets with
        | false => exact S.run L hpre ok hsets
        | true =>
          rcases setting hr hpre hsets with ⟨pc, rfl⟩ | ⟨-, hpub⟩
          · exact S.destroy L hpre ok
          · obtain ⟨B, hlate⟩ := blank_reachable hr' (hpub ok)
            exact B.stream hlate
    · refine ⟨S.tasks, fun o ho hsend => ?_, S.resting, S.handed⟩
      rcases List.mem_cons.mp ho with rfl | ho
      · exact S.ops op hmem hsend
      · exact S.ops o (List.mem_of_mem_erase ho) hsend

/-! ## The stream -/

/-- The operations of a kind that the system holds for the session. -/
def Cell.outstanding (c : Cell) (k : IOOperation) : List Op := c.ops.filter (·.operation = k)

theorem length_outstanding_send (c : Cell) : (c.outstanding .send).length
    = (c.ops.map fun op => lostSends (some op.operation)).sum := by
  unfold Cell.outstanding
  generalize c.ops = l
  induction l with
  | nil => rfl
  | cons op l ih =>
    rw [List.map_cons, List.sum_cons, ← ih, List.filter_cons]
    obtain ⟨id, operation, wsa, room, done⟩ := op
    cases operation with
    | send => exact Nat.add_comm _ 1
    | recv | accept | connect => exact (Nat.zero_add _).symm

theorem Laws.send_le_one {s : Sys T} (L : Laws s) : (s.cell.outstanding .send).length ≤ 1 := by
  rw [length_outstanding_send]
  have hflag : s.cell.sendFlag.toNat ≤ 1 := by cases s.cell.sendFlag <;> decide
  have hlaw := L.sends
  omega

/-- A step beside an outstanding `WSASend` does not touch the batch. -/
theorem batch_unchanged {s s' : Sys T} (h : Reachable system s) (hnext : system.next s s')
    (hsend : s.cell.outstanding .send ≠ []) :
    s'.cell.sendPacketArr = s.cell.sendPacketArr ∧
      s'.cell.sendPacketCount = s.cell.sendPacketCount := by
  obtain ⟨L, -⟩ := lawful h
  obtain ⟨op, hop⟩ := List.exists_mem_of_ne_nil _ hsend
  have hmem := List.mem_filter.mp hop
  have hkind : op.operation = .send := of_decide_eq_true hmem.2
  rcases step_does hnext with ⟨t, r, hdoes, rfl⟩ | ⟨op, chunk, -, -, -, rfl⟩
  · generalize hpre : s.tasks t = pre at hdoes
    cases hdoes with
    | sendPacket _ _ _ | disconnect _ _ | take _ _ => exact ⟨rfl, rfl⟩
    | run task ok =>
      have howns : task.phase.owns = false := by
        cases howns : task.phase.owns with
        | false => rfl
        | true =>
          have howns : (phaseOf (s.tasks t)).owns = true := by rwa [hpre]
          exact absurd hkind ((L.sole_owner howns).1 op hmem.1)
      have hsets : task.phase.sets = false := by
        cases hsets : task.phase.sets with
        | false => rfl
        | true =>
          rcases setting h hpre hsets with ⟨pc, rfl⟩ | ⟨hpub, -⟩
          · have hnil := (L.unreferenced (L.destroying hpre).1).1
            rw [hnil] at hmem
            exact absurd hmem.1 List.not_mem_nil
          · exact absurd hkind ((blank_reachable h hpub).1.ops op hmem.1)
      rcases (run_sendStep ok s.cell task).grows howns hsets with G | ⟨-, heq⟩
      · exact ⟨G.arr, G.count⟩
      · exact ⟨congrArg Outbox.arr heq, congrArg Outbox.count heq⟩
  · exact ⟨rfl, rfl⟩

/-- What a `WSASend` on these buffers transfers. -/
def bytesOf (l : List (Option Buffer)) : List UInt8 :=
  l.flatMap fun b => (b.map (·.bytes)).getD []

/-- **The send stream is the queue**: there is at most one `WSASend` at a time; its buffers are those in
    `send_packet_arr_`, and no step changes them before its completion is taken; the branch for an
    empty batch is never taken; and what was handed over, buffers and bytes, is the front of what
    entered `send_q_`. -/
theorem send_stream {s : Sys T} (h : Reachable system s) :
    (s.cell.outstanding .send).length ≤ 1 ∧
    (∀ op ∈ s.cell.outstanding .send,
      s.cell.sendPacketArr = slots op.wsaBuf ∧ s.cell.sendPacketCount = op.wsaBuf.length) ∧
    (∀ s', system.next s s' → s.cell.outstanding .send ≠ [] →
      s'.cell.sendPacketArr = s.cell.sendPacketArr ∧
        s'.cell.sendPacketCount = s.cell.sendPacketCount) ∧
    (∀ t task, s.tasks t = some task → task.asyncPc ≠ some .noPacket) ∧
    s.cell.handed <+: s.cell.entered.map some ∧
    bytesOf s.cell.handed <+: s.cell.entered.flatMap (·.bytes) := by
  obtain ⟨L, -⟩ := lawful h
  have S := streaming h
  refine ⟨L.send_le_one, fun op hop => ?_, fun s' hnext => batch_unchanged h hnext,
    fun t task ht hpc => ?_, S.handed, ?_⟩
  · obtain ⟨hmem, hkind⟩ := List.mem_filter.mp hop
    have H := S.ops op hmem (of_decide_eq_true hkind)
    exact ⟨H.arr, H.count⟩
  · have F := S.tasks t
    rw [ht] at F
    cases task with
    | sendPacket pc =>
      cases pc with
      | sendAsync pc =>
        obtain rfl : pc = .noPacket := Option.some.inj hpc
        exact F
      | _ => cases hpc
    | send id pc =>
      cases pc with
      | sendAsync pc =>
        obtain rfl : pc = .noPacket := Option.some.inj hpc
        exact F
      | _ => cases hpc
    | _ => cases hpc
  · obtain ⟨l, hl⟩ := S.handed
    have hbytes : bytesOf (s.cell.entered.map some) = s.cell.entered.flatMap (·.bytes) := by
      unfold bytesOf
      rw [List.flatMap_map]
      rfl
    refine ⟨bytesOf l, ?_⟩
    rw [← hbytes, ← hl]
    exact List.flatMap_append.symm

/-! ## Schedules -/

/-- A thread goes on, and all it asks of the system succeeds. -/
def goes (t : T) (n : Nat) : List (Act T) := List.replicate n (.go t true)

/-- A thread is in `PostAcceptEx`, gets the completion, and posts the first receive. -/
def accepting (t : T) : List (Act T) :=
  goes t 3 ++
    .complete ⟨0, .accept, [], 0, none⟩ [] :: .take t ⟨0, .accept, [], 0, some 0⟩ :: goes t 12

theorem aligned_zero : 0 % 8192 = 0 := rfl

/-- A session of a server, made by this thread. -/
def served (t : T) : Sys T := .new .server (.new (fun _ => 0) 0 aligned_zero) t

theorem served_init (t : T) : (system : System (Sys T)).init (served t) := ⟨_, _, _, _, _, rfl⟩

theorem step_next (s : Sys T) (a : Act T) (s' : Sys T) (h : step s a = some s') :
    (system : System (Sys T)).next s s' := ⟨a, h⟩

/-- One thread sends a packet. -/
theorem send_stream_one : ∃ s : Sys Unit, (s.cell.outstanding .send).length = 1 ∧
    bytesOf s.cell.handed <+: s.cell.entered.flatMap (·.bytes) := by
  obtain ⟨s, hr, hp⟩ := exists_reachable_of_exec (served_init ()) step_next
    (accepting () ++ .sendPacket () ⟨⟨1, [2]⟩, true⟩ :: goes () 15)
    (fun s => decide ((s.cell.outstanding .send).length = 1)) (by decide)
  exact ⟨s, of_decide_eq_true hp, (send_stream hr).2.2.2.2.2⟩

end JunCore.SessionSteps
