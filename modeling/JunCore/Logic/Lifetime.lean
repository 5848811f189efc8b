/-
  When an object dies, who is still looking at it, and what becomes of its jobs.

  `ProcessJobObjects` deletes the object it has in hand as soon as it finds the mark set.  Three
  things are in its way:

  * the thread that handed the object over comes back from `Flush` and tests the mark of an object
    it does not own any more, so two threads can find the mark and both delete;
  * a poster links its job before the CAS, so the owner can run that very job, find the mark and
    delete the object while the poster has the CAS still to do;
  * the jobs behind the marking job sit in `m_jobQueue` when the object goes.

  For the first two a schedule on the small instance shows the fault, and a theorem says which
  side condition on the steps keeps every run clear of it.  The third is what the code does on
  purpose: `accepted_jobs_up_to_the_mark` says which jobs run and which are thrown away.
-/
import JunCore.Logic.Order

set_option linter.unusedVariables false
set_option linter.unusedSectionVars false

namespace JunCore.Logic

open Transition Function Counting

variable {T P O J W K : Type} [DecidableEq T] [DecidableEq P] [DecidableEq O]

/-! ## One thread at the mark -/

/-- Whether a thread has the object in hand, in whatever phase. -/
def inHand : Option (Phase T O J) → Nat
  | some _ => 1
  | none => 0

@[simp] theorem inHand_some (ph : Phase T O J) : inHand (some ph) = 1 := rfl
@[simp] theorem inHand_none : inHand (none : Option (Phase T O J)) = 0 := rfl

theorem inHand_le_one (x : Option (Phase T O J)) : inHand x ≤ 1 := by
  cases x
  · exact Nat.zero_le 1
  · exact Nat.le_refl 1

/-- A step that marks the object is taken while at most one thread has it in hand. -/
def View.MarkedAlone (v v' : View T P O J) : Prop :=
  v.cell.markedForDelete = false → v'.cell.markedForDelete = true →
    ∀ t t' ph ph', v.loop t = some ph → v.loop t' = some ph' → t = t'

/-- **Side condition.**  When a step marks `o`, no other `JobThread` has `o` in hand: a thread that
    handed `o` over, or lost it in the re-check, has made its `IsMarkedForDelete` test already. -/
def MarkedAlone (o : O) (s s' : Sys T P O J W) : Prop :=
  (s.cells o).markedForDelete = false → (s'.cells o).markedForDelete = true →
    ∀ t t' ph ph', s.loops t = .busy o ph → s.loops t' = .busy o ph' → t = t'

theorem view_markedAlone {o : O} {s s' : Sys T P O J W} (h : MarkedAlone o s s') :
    (s.view o).MarkedAlone (s'.view o) := fun hu hm t t' ph ph' hl hl' =>
  h hu hm t t' ph ph' (view_loop_eq_some.mp hl) (view_loop_eq_some.mp hl')

variable [Fintype T] [Fintype P]

/-- How many threads have the object in hand. -/
def View.hands (v : View T P O J) : Nat := total inHand v.loop

/-- Past the mark, the deletions made and the threads that may still make one are one together. -/
def SoleHand (v : View T P O J) : Prop :=
  v.cell.markedForDelete = true → v.cell.deletes + v.hands ≤ 1

namespace SoleHand

theorem flush {v : View T P O J} (I : Owned v) (L : InOrder v) (A : SoleHand v) {t : T}
    {ph : Phase T O J} (h : v.loop t = some ph) (is : List (Instr T O J))
    (hg : v.MarkedAlone (v.flush t is ph)) : SoleHand (v.flush t is ph) := by
  intro hm
  have hsum := total_update inHand v.loop t (flushStep is v.cell ph).phase
  rw [h] at hsum
  have hle := inHand_le_one (flushStep is v.cell ph).phase
  show (flushStep is v.cell ph).cell.deletes
    + total inHand (update v.loop t (flushStep is v.cell ph).phase) ≤ 1
  cases hu : v.cell.markedForDelete with
  | true =>
    have hold := A hu
    rw [View.hands] at hold
    rcases deletes_flushStep is v.cell ph with hd | ⟨rfl, hd, hn⟩
    · simp only [inHand_some] at hsum; omega
    · rw [hn] at hsum ⊢
      simp only [inHand_some, inHand_none] at hsum; omega
  | false =>
    -- the step that marks: the running job is alone with the object
    have hzero : v.cell.deletes = 0 := L.progress.unmarked hu
    have hone : total inHand v.loop ≤ 1 := total_le_one (fun i => inHand_le_one _) fun i j hi hj => by
      cases hli : v.loop i with
      | none => rw [hli] at hi; cases hi
      | some phi =>
        cases hlj : v.loop j with
        | none => rw [hlj] at hj; cases hj
        | some phj => exact hg hu hm i j phi phj hli hlj
    rcases deletes_flushStep is v.cell ph with hd | ⟨rfl, -, -⟩
    · simp only [inHand_some] at hsum; omega
    · have := I.loop t _ h
      rw [show v.cell.markedForDelete = true from this] at hu; cases hu

/-- **The step lemma**: under the side condition, past the mark there is one hand at most. -/
theorem step {v v' : View T P O J} (I : Owned v) (L : InOrder v) (A : SoleHand v)
    (h : View.Step v v') (hg : v.MarkedAlone v') : SoleHand v' := by
  cases h with
  | enter a j h => exact A
  | post a f h =>
    intro hm
    have hm : (postStep v.cell f).1.markedForDelete = true := hm
    rw [(postStep_keeps v.cell f).2] at hm
    show (postStep v.cell f).1.deletes + v.hands ≤ 1
    rw [deletes_postStep]
    exact A hm
  | take t h hq =>
    intro hm
    have hm : v.cell.markedForDelete = true := hm
    rw [(I.queued t hq).2] at hm
    cases hm
  | flush t is ph h => exact A.flush I L h is hg
  | selfCall t is ph j h hf _ => exact A.flush I L h is hg

end SoleHand

/-- **Deleted once, and left alone.**  In every run in which `o` is only ever marked while no other
    thread has it in hand, `o` is deleted at most once, and no `JobThread` takes a step on it
    afterwards. -/
theorem deleted_once_and_left_alone {prog : Program T O J W K} (o : O) {s : Sys T P O J W}
    (h : Reachable ((prog.system P).guard (MarkedAlone o)) s) :
    (s.cells o).deletes ≤ 1 ∧
      (0 < (s.cells o).deletes → ∀ t ph, s.loops t ≠ .busy o ph) := by
  have hview := ((view_projection (P := P) prog o).guard (H := View.MarkedAlone)
    fun s s' hg => view_markedAlone hg).reachable h
  have A : SoleHand (s.view o) := by
    apply hview.invariant (I := SoleHand)
    · rintro v rfl hm
      cases hm
    · intro v v' hr A hs
      exact A.step (.of_reachable hr.of_guard) (.of_reachable hr.of_guard) hs.1 hs.2
  have hmark : 0 < (s.cells o).deletes → (s.cells o).deletes + (s.view o).hands ≤ 1 :=
    fun hd => A (marked_of_deletes h.of_guard hd)
  constructor
  · by_contra hd
    have := hmark (by omega)
    omega
  · intro hd t ph hl
    have h₁ := le_total inHand (s.view o).loop t
    have h₂ := hmark hd
    rw [view_loop_eq_some.mpr hl] at h₁
    rw [View.hands] at h₂
    simp only [inHand_some] at h₁
    omega

/-- Destroyed by its owner with nobody else around, the object is deleted once. -/
theorem deleted_once_and_left_alone_duo :
    ∃ s, Reachable ((duo.system (Fin 2)).guard (MarkedAlone ())) s ∧ 0 < (s.cells ()).deletes ∧
      (s.cells ()).deletes ≤ 1 ∧ ∀ t ph, s.loops t ≠ .busy () ph := by
  obtain ⟨s, hr, hp⟩ := duo_guarded_reachable (G := MarkedAlone ())
    (Duo.post 0 .destroy 8 ++ Duo.run 0 12)
    (fun s s' => (s.cells ()).markedForDelete || !(s'.cells ()).markedForDelete ||
      decide (∀ t t', ((s.view ()).loop t).isSome → ((s.view ()).loop t').isSome → t = t'))
    (fun s s' hg hu hm t t' ph ph' hl hl' => by
      simp only [hu, hm, Bool.not_true, Bool.or_false, Bool.false_or, decide_eq_true_eq] at hg
      exact hg t t' (by rw [view_loop_eq_some.mpr hl]; rfl) (by rw [view_loop_eq_some.mpr hl']; rfl))
    (fun s => 0 < (s.cells ()).deletes) (by decide)
  have hd : 0 < (s.cells ()).deletes := by simpa using hp
  obtain ⟨hone, hnone⟩ := deleted_once_and_left_alone () hr
  exact ⟨s, hr, hd, hone, hnone hd⟩

/-- **Deleted twice.**  Thread 0 runs the moving job, hands the object over to thread 1 and stops
    just before its mark test.  Thread 1 takes the object, runs the destroying job and deletes it;
    then thread 0 makes its test, finds the mark and deletes it again. -/
theorem deleted_twice : ∃ s, Reachable (duo.system (Fin 2)) s ∧ (s.cells ()).deletes = 2 := by
  obtain ⟨s, hr, hp⟩ := duo_reachable (Duo.post 0 .move 8 ++ Duo.post 0 .destroy 5 ++ Duo.run 0 14 ++
    Duo.run 1 12 ++ Duo.run 0 2) (fun s => (s.cells ()).deletes == 2) (by decide)
  exact ⟨s, hr, by simpa using hp⟩

/-! ## Posters at the delete -/

/-- A `PostJob` whose CAS is still to come. -/
def PostPC.undecided : PostPC T → Prop
  | .register _ _ => False
  | _ => True

/-- A `PostJob` with a step on the object, or a registration of it, still to come. -/
def PostPC.touches : PostPC T → Prop
  | .register _ (.count _) => False
  | _ => True

/-- **Side condition.**  A `PostJob` on `o` is only begun while `o` is alive. -/
def PostedAlive (o : O) (s s' : Sys T P O J W) : Prop :=
  ∀ a f, (∀ f₀, s.frames a ≠ some (o, f₀)) → s'.frames a = some (o, f) → (s.cells o).deletes = 0

/-- **Side condition.**  When a step deletes `o`, no `PostJob` on `o` has its CAS still to come. -/
def DeletedDecided (o : O) (s s' : Sys T P O J W) : Prop :=
  (s'.cells o).deletes ≠ (s.cells o).deletes → ∀ a f, s.frames a = some (o, f) → ¬ f.pc.undecided

/-- Both conditions, as the object sees them. -/
structure View.PostsInTime (v v' : View T P O J) : Prop where
  alive : ∀ a f, v.frame a = none → v'.frame a = some f → v.cell.deletes = 0
  decided : v'.cell.deletes ≠ v.cell.deletes → ∀ a f, v.frame a = some f → ¬ f.pc.undecided

theorem view_postsInTime {o : O} {s s' : Sys T P O J W}
    (h : PostedAlive o s s' ∧ DeletedDecided o s s') : (s.view o).PostsInTime (s'.view o) where
  alive a f hn hs := h.1 a f (fun f₀ hf => by
    rw [view_frame_eq_some.mpr hf] at hn; cases hn) (view_frame_eq_some.mp hs)
  decided hd a f hf := h.2 hd a f (view_frame_eq_some.mp hf)

/-- Nobody touches a deleted object from inside `PostJob`. -/
def Untouched (v : View T P O J) : Prop :=
  0 < v.cell.deletes → ∀ a f, v.frame a = some f → ¬ f.pc.touches

namespace Untouched

/-- The last step of a `PostJob` is the one that touches nothing. -/
theorem next_of_not_touches {c : Cell T J} {f : PostCall T J} (h : ¬ f.pc.touches) :
    (postStep c f).2.1 = none := by
  obtain ⟨j, pc⟩ := f
  cases pc with
  | register n r =>
    cases r with
    | count t => rfl
    | loadThread | link t => exact absurd trivial h
  | loadMarked | link | count n | cas n => exact absurd trivial h

theorem flush {v : View T P O J} (I : Owned v) (A : Untouched v) {t : T} {ph : Phase T O J}
    (h : v.loop t = some ph) (is : List (Instr T O J))
    (hg : (v.flush t is ph).cell.deletes ≠ v.cell.deletes →
      ∀ a f, v.frame a = some f → ¬ f.pc.undecided) : Untouched (v.flush t is ph) := by
  intro hd a f hf
  rcases deletes_flushStep is v.cell ph with hsame | ⟨rfl, hone, -⟩
  · exact A (by rw [← hsame]; exact hd) a f hf
  · -- the object goes now; a poster past its CAS knows that it is unmarked, unless it has registered
    have hm : v.cell.markedForDelete = true := I.loop t _ h
    have hsound := I.frame a f hf
    have hnot := hg (by rw [show (v.flush t is .delete).cell.deletes = _ from hone]; omega) a f hf
    obtain ⟨j, pc⟩ := f
    cases pc with
    | register n r =>
      cases r with
      | count t' => exact id
      | loadThread => exact absurd (hm.symm.trans hsound) (by simp)
      | link t' => exact absurd (hm.symm.trans hsound.2) (by simp)
    | loadMarked | link | count n | cas n => exact absurd trivial hnot

/-- **The step lemma.** -/
theorem step {v v' : View T P O J} (I : Owned v) (A : Untouched v) (h : View.Step v v')
    (hg : v.PostsInTime v') : Untouched v' := by
  have henter : ∀ a j, v.frame a = none → (v.enter a j).frame a = some (.enter j) :=
    fun a j _ => by simp [View.enter]
  cases h with
  | enter a j h =>
    intro hd
    have hzero := hg.alive a _ h (henter a j h)
    have hd : 0 < v.cell.deletes := hd
    omega
  | post a f h =>
    intro hd' a' f' hf'
    have hd : 0 < v.cell.deletes := by rw [← deletes_postStep v.cell f]; exact hd'
    by_cases ha : a' = a
    · subst ha
      have hnext : (postStep v.cell f).2.1 = some f' := by simpa [View.post] using hf'
      rw [next_of_not_touches (A hd a' f h)] at hnext
      cases hnext
    · exact A hd a' f' (by simpa [View.post, ha] using hf')
  | take t h hq => exact A
  | flush t is ph h => exact A.flush I h is hg.decided
  | selfCall t is ph j h hf hcall =>
    intro hd
    have hzero := hg.alive (.inl t) _ hf (show ((v.flush t is ph).enter (.inl t) j).frame (.inl t)
      = some (.enter j) by simp [View.enter])
    -- a step that enters a call deletes nothing
    rcases deletes_flushStep is v.cell ph with hsame | ⟨rfl, -, -⟩
    · have hd : 0 < (flushStep is v.cell ph).cell.deletes := hd
      omega
    · obtain ⟨o, hcall⟩ := hcall
      cases hcall

end Untouched

/-- **Posters let go in time.**  In every run in which `PostJob` is only begun on a living `o`, and
    `o` is only deleted while no `PostJob` on it has its CAS still to come, no `PostJob` touches `o`
    after its deletion and no `JobThread` queue ever holds it then. -/
theorem posts_let_go_before_delete {prog : Program T O J W K} (o : O) {s : Sys T P O J W}
    (h : Reachable ((prog.system P).guard fun s s' => PostedAlive o s s' ∧ DeletedDecided o s s') s)
    (hd : 0 < (s.cells o).deletes) :
    (∀ a f, s.frames a = some (o, f) → ¬ f.pc.touches) ∧ ∀ t, o ∉ (s.queues t).items := by
  have hview := ((view_projection (P := P) prog o).guard (H := View.PostsInTime)
    fun s s' hg => view_postsInTime hg).reachable h
  have A : Untouched (s.view o) := by
    apply hview.invariant (I := Untouched)
    · rintro v rfl hd
      exact absurd hd (Nat.lt_irrefl 0)
    · intro v v' hr A hs
      exact A.step (.of_reachable hr.of_guard) hs.1 hs.2
  constructor
  · intro a f hf
    exact A hd a f (view_frame_eq_some.mpr hf)
  · -- a queue holds the object only while it is unmarked
    intro t ht
    have hu : (s.cells o).markedForDelete = false :=
      ((owned_reachable h.of_guard o).queued t (view_queued_pos.mpr ht)).2
    rw [marked_of_deletes h.of_guard hd] at hu
    cases hu

/-- The calls a run enters, checked step by step. -/
def Duo.postedAlive (s s' : Duo.State) : Bool :=
  (s.cells ()).deletes == 0 ||
    decide (∀ a, ((s'.view ()).frame a).isSome → ((s.view ()).frame a).isSome)

theorem Duo.postedAlive_sound {s s' : Duo.State} (h : Duo.postedAlive s s' = true) :
    PostedAlive () s s' := by
  intro a f hn hf
  simp only [Duo.postedAlive, Bool.or_eq_true, beq_iff_eq, decide_eq_true_eq] at h
  rcases h with h | h
  · exact h
  · have := h a (by rw [view_frame_eq_some.mpr hf]; rfl)
    obtain ⟨f₀, hf₀⟩ := Option.isSome_iff_exists.mp this
    exact absurd (view_frame_eq_some.mp hf₀) (hn f₀)

/-- A `Destroy` that has returned before the object is deleted. -/
theorem posts_let_go_before_delete_duo :
    ∃ s, Reachable ((duo.system (Fin 2)).guard fun s s' =>
        PostedAlive () s s' ∧ DeletedDecided () s s') s ∧ 0 < (s.cells ()).deletes ∧
      (∀ a f, s.frames a = some ((), f) → ¬ f.pc.touches) ∧ ∀ t, () ∉ (s.queues t).items := by
  obtain ⟨s, hr, hp⟩ := duo_guarded_reachable
    (G := fun s s' => PostedAlive () s s' ∧ DeletedDecided () s s')
    (Duo.post 0 .destroy 8 ++ Duo.run 0 12)
    (fun s s' => Duo.postedAlive s s' && ((s'.cells ()).deletes == (s.cells ()).deletes ||
      decide (∀ a, ((s.view ()).frame a).isNone)))
    (fun s s' hg => by
      simp only [Bool.and_eq_true, Bool.or_eq_true, beq_iff_eq, decide_eq_true_eq] at hg
      refine ⟨Duo.postedAlive_sound hg.1, fun hne a f hf => ?_⟩
      have := (hg.2.resolve_left hne) a
      rw [view_frame_eq_some.mpr hf] at this
      cases this)
    (fun s => 0 < (s.cells ()).deletes) (by decide)
  have hd : 0 < (s.cells ()).deletes := by simpa using hp
  exact ⟨s, hr, hd, posts_let_go_before_delete () hr hd⟩

/-- Whether a caller is inside the `PostJob` of a `Destroy`, at the CAS. -/
def Duo.destroyAtCas : Option (Unit × PostCall (Fin 2) Duo.Job) → Bool
  | some ((), ⟨.destroy, .cas _⟩) => true
  | _ => false

/-- **`Destroy` touches what it destroyed.**  The object is scheduled already, `Destroy`'s own
    `PostJob` has linked and counted the destroying job; before its CAS, the owner runs that job and
    deletes the object. -/
theorem destroy_touches_the_deleted :
    ∃ s, Reachable ((duo.system (Fin 2)).guard (PostedAlive ())) s ∧ (s.cells ()).deletes = 1 ∧
      ∃ n, s.frames (.inr 0) = some ((), ⟨.destroy, .cas n⟩) := by
  obtain ⟨s, hr, hp⟩ := duo_guarded_reachable (G := PostedAlive ())
    (Duo.post 1 .nop 8 ++ Duo.post 0 .destroy 4 ++ Duo.run 0 18) Duo.postedAlive
    (fun s s' hg => Duo.postedAlive_sound hg)
    (fun s => (s.cells ()).deletes == 1 && Duo.destroyAtCas (s.frames (.inr 0))) (by decide)
  rw [Bool.and_eq_true] at hp
  obtain ⟨hd, hf⟩ := hp
  unfold Duo.destroyAtCas at hf
  split at hf
  · rename_i n hframe
    exact ⟨s, hr, by simpa using hd, n, hframe⟩
  · cases hf

/-! ## What becomes of the accepted jobs -/

/-- **Up to the mark and no further.**  When an object has been deleted, some job `m` marked it.  Of
    the jobs `PostJob` accepted, those that entered before `m` were called once and returned once,
    `m` itself was called once, and those behind `m` were never called: `Flush` returns on the mark
    and the destructor throws away what is left. -/
theorem accepted_jobs_up_to_the_mark {prog : Program T O J W K} {s : Sys T P O J W}
    (h : Reachable (prog.system P) s) (o : O) (hd : 0 < (s.cells o).deletes) :
    ∃ m, (s.cells o).markedBy = some m ∧ ∀ n ∈ (s.cells o).accepted,
      (n < m → (s.cells o).started.count n = 1 ∧ (s.cells o).finished.count n = 1) ∧
      (n = m → (s.cells o).started.count n = 1) ∧
      (m < n → (s.cells o).started.count n = 0) := by
  have L := (inOrder_reachable h o).progress
  obtain ⟨m, hby, hlast⟩ := L.marked (marked_of_deletes h hd)
  have hstarted : (s.cells o).started = List.range (s.cells o).started.length := L.started
  have hfinished : (s.cells o).finished = List.range (s.cells o).finished.length := L.finished
  have hcalled : (s.cells o).started.length
      = (s.cells o).finished.length + (s.view o).stage.isRunning := L.called
  have hlast : m + 1 = (s.cells o).started.length := hlast
  have hrun : (s.view o).stage.isRunning ≤ 1 := by
    cases (s.view o).stage
    · exact Nat.zero_le 1
    · exact Nat.zero_le 1
    · exact Nat.le_refl 1
  have hcount : ∀ k n, n < k → (List.range k).count n = 1 := by
    intro k n hlt
    exact List.count_eq_one_of_mem List.nodup_range (List.mem_range.mpr hlt)
  refine ⟨m, hby, ?_⟩
  intro n _
  refine ⟨?_, ?_, ?_⟩
  · intro hlt
    constructor
    · rw [hstarted]; exact hcount _ n (by omega)
    · rw [hfinished]; exact hcount _ n (by omega)
  · intro heq
    rw [hstarted]; exact hcount _ n (by omega)
  · intro hlt
    rw [hstarted, List.count_eq_zero, List.mem_range]
    omega

/-- Job 0 destroys the object, job 1 sits behind it. -/
theorem accepted_jobs_up_to_the_mark_duo : ∃ s, Reachable (duo.system (Fin 2)) s ∧
    0 < (s.cells ()).deletes ∧ (s.cells ()).accepted = [0, 1] ∧
    (s.cells ()).started.count 0 = 1 ∧ (s.cells ()).started.count 1 = 0 := by
  obtain ⟨s, hr, hp⟩ := duo_reachable (Duo.post 0 .destroy 8 ++ Duo.post 0 .nop 5 ++ Duo.run 0 12)
    (fun s => decide (0 < (s.cells ()).deletes) && (s.cells ()).accepted == [0, 1] &&
      (s.cells ()).markedBy == some 0) (by decide)
  simp only [Bool.and_eq_true, beq_iff_eq, decide_eq_true_eq] at hp
  obtain ⟨⟨hd, hacc⟩, hzero⟩ := hp
  obtain ⟨m, hby, hjobs⟩ := accepted_jobs_up_to_the_mark hr () hd
  obtain rfl : m = 0 := by simpa [hzero, eq_comm] using hby
  exact ⟨s, hr, hd, hacc, (hjobs 0 (by simp [hacc])).2.1 rfl, (hjobs 1 (by simp [hacc])).2.2 Nat.one_pos⟩

/-- **An accepted job that never runs**: the object is gone and the job was not called. -/
theorem accepted_job_thrown_away : ∃ s, Reachable (duo.system (Fin 2)) s ∧
    (s.cells ()).deletes = 1 ∧ 1 ∈ (s.cells ()).accepted ∧ 1 ∉ (s.cells ()).started := by
  obtain ⟨s, hr, hp⟩ := duo_reachable (Duo.post 0 .destroy 8 ++ Duo.post 0 .nop 5 ++ Duo.run 0 12)
    (fun s => (s.cells ()).deletes == 1 && (s.cells ()).accepted.contains 1 &&
      !(s.cells ()).started.contains 1) (by decide)
  simp only [Bool.and_eq_true, Bool.not_eq_true', beq_iff_eq, List.contains_iff_mem] at hp
  refine ⟨s, hr, hp.1.1, hp.1.2, fun hmem => ?_⟩
  rw [List.contains_iff_mem.mpr hmem] at hp
  exact absurd hp.2 (by simp)

end JunCore.Logic
