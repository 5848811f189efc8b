/-
  One `User` for each connected session.

  The number of `User`s a session has created is zero until the handler that connects it does so, and
  one from then on; `Set` makes it the owner, and `~Session` says goodbye to the owner if there is one.
  So when the destructor has returned, `OnUserDisconnect` was called as often as a `User` was created
  (`Lived.gone`), and before that it was not called at all.
-/
import JunCore.Network.UserSteps

set_option linter.unusedVariables false
set_option linter.unusedSectionVars false

namespace JunCore.SessionSteps

open Function Transition Network Counting

variable {T : Type} [DecidableEq T] [Fintype T]

/-- How often the log has this entry. -/
def Life.times (l : Life) (e : Event) : Nat := l.log.count e

/-- What is known at each stage. -/
def Life.Fit (l : Life) : Stage → Prop
  | .coming _ => l.times .created = 0
  | .checked e | .newUser e => l.engine = some e ∧ l.times .created = 0
  | .set e | .drain e | .callback e | .inCallback e | .first e _ =>
    l.engine = some e ∧ l.times .created = 1
  | .ending .onUserDisconnect =>
    l.engine ≠ none ∧ l.times .userDisconnected = 0 ∧ l.times .created = l.ownerUser.toNat
  | .ending _ => l.times .userDisconnected = l.times .created
  | _ => True

def Stage.isSet : Stage → Bool
  | .set _ => true
  | _ => false

/-- **What there is to know about the `User`.** -/
structure Lived (s : Sys T) : Prop where
  stages : ∀ t, s.cell.life.Fit (stageOf (s.tasks t))
  ops : ∀ op ∈ s.cell.ops, op.early = true → s.cell.life.times .created = 0
  sock : 0 < s.cell.refs → s.cell.sock = true
  engine : 0 < s.cell.refs → s.cell.engine ≠ none
  before : 0 < s.cell.refs → s.cell.life.times .userDisconnected = 0
  owner : 0 < s.cell.refs → s.cell.life.times .created = s.cell.ownerUser.toNat ∨
    ∃ t, (stageOf (s.tasks t)).isSet = true
  once : s.cell.life.times .created ≤ 1
  published : s.cell.published = true → s.cell.life.times .created = 1
  gone : 0 < s.cell.destroyed → s.cell.life.times .userDisconnected = s.cell.life.times .created

/-! ## Each step -/

/-- A step that does not create a `User` does not touch what was known about it. -/
structure Life.Keeps (l l' : Life) : Prop where
  engine : ∀ e, l.engine = some e → l'.engine = some e
  created : l'.times .created = l.times .created

/-- The stages of the destructor. -/
def Stage.ends : Stage → Bool
  | .ending _ => true
  | _ => false

theorem times_append (l : Life) (m : List Event) (e : Event) :
    ({ l with log := l.log ++ m } : Life).times e = l.times e + m.count e :=
  List.count_append

theorem casPending_times (c : Cell) {e : Event} (he : e ≠ .disconnected) :
    c.casPending.1.life.times e = c.life.times e := by
  unfold Cell.casPending
  split
  · refine (times_append c.life _ e).trans ?_
    rw [List.count_singleton, if_neg (by simpa using he.symm), Nat.add_zero]
  · rfl

theorem recvAsync_life (ok : Bool) (c : Cell) (pc : RecvAsyncPc) :
    (recvAsync ok c pc).1.life = c.life ∨
      (recvAsync ok c pc).1.life = { c.life with lostRecv := c.lostRecv + 1 } ∧
        (recvAsync ok c pc).2 = none ∧ (c.sock = false ∨ c.pendingDisconnect = true) := by
  cases pc with
  | check =>
    cases hcheck : !c.sock || c.pendingDisconnect with
    | true =>
      simp only [recvAsync, hcheck]
      refine .inr ⟨rfl, rfl, ?_⟩
      simpa using hcheck
    | false =>
      simp only [recvAsync, hcheck]
      exact .inl rfl
  | post | postZero id room => exact .inl rfl

theorem LifeStep.keeps {ok : Bool} {c : Cell} {p p' : Stage} {l' : Life}
    (h : LifeStep ok c p l' p') (F : c.life.Fit p) (hends : p.ends = false) :
    c.life.Keeps l' ∨ (∃ e, p = .newUser e) ∧ l' = { c.life with log := c.log ++ [.created] } := by
  cases h with
  | cas =>
    refine .inl ⟨fun e he => ?_, casPending_times c nofun⟩
    unfold Cell.casPending
    split <;> exact he
  | cancel | inCallback _ | handle _ _ | inHandler _ =>
    exact .inl ⟨fun e he => he, times_append c.life _ .created⟩
  | newUser e => exact .inr ⟨⟨e, rfl⟩, rfl⟩
  | set e =>
    refine .inl ⟨fun e' he' => ?_, rfl⟩
    exact F.1.symm.trans he' ▸ rfl
  | first e pc | recvAsync pc =>
    left
    rcases recvAsync_life ok c pc with heq | ⟨heq, -⟩ <;> rw [heq] <;> exact ⟨fun e he => he, rfl⟩
  | onUserDisconnect | clearOwner | release | drained pc => cases hends
  | _ => exact .inl ⟨fun e he => he, rfl⟩

/-- `OnUserDisconnect` is called for the owner, if there is one. -/
theorem onUserDisconnect_fits {c : Cell} (F : c.life.Fit (.ending .onUserDisconnect)) :
    (destroy c .onUserDisconnect).1.life.Fit (.ending .clearOwner) := by
  obtain ⟨hengine, hbefore, howner⟩ := F
  have hengine : c.engine ≠ none := hengine
  have howner : c.life.times .created = c.ownerUser.toNat := howner
  cases he : c.engine with
  | none => exact absurd he hengine
  | some e =>
    cases ho : c.ownerUser with
    | false =>
      rw [ho] at howner
      simp only [destroy, he, ho]
      exact hbefore.trans howner.symm
    | true =>
      rw [ho] at howner
      simp only [destroy, he, ho]
      show ({ c.life with log := c.log ++ _ } : Life).times _
        = ({ c.life with log := c.log ++ _ } : Life).times _
      refine (times_append c.life _ _).trans (Eq.trans ?_ (times_append c.life _ _).symm)
      rw [hbefore, howner]
      cases e <;> rfl

/-- What is known at the stage a step comes from leads to what is known where it goes. -/
theorem LifeStep.fits {ok : Bool} {c : Cell} {p p' : Stage} {l' : Life}
    (h : LifeStep ok c p l' p') (F : c.life.Fit p)
    (hlast : c.refs = 1 → p.isSet = false → c.life.Fit (.ending .onUserDisconnect)) : l'.Fit p' := by
  have hdrop : p.isSet = false → c.life.Fit (.dropped c) := by
    intro hset
    unfold Stage.dropped
    split
    · rename_i hone
      exact hlast hone hset
    · trivial
  cases h with
  | keep | cancel | failed _ | moveRear n | tooMany k | handle _ _ | skip _ | inHandler _ => trivial
  | leave _ hp | loadPending hp => rcases hp with rfl | rfl <;> trivial
  | cas => split <;> trivial
  | drop | giveUp k => exact hdrop rfl
  | coming e hp =>
    rcases hp with rfl | rfl | rfl
    · exact F
    · trivial
    · trivial
  | cast hengine => exact ⟨hengine, F⟩
  | checked e hp =>
    rcases hp with rfl | rfl | rfl
    · exact F
    · exact F
    · trivial
  | newUser e =>
    refine ⟨F.1, (times_append c.life _ _).trans ?_⟩
    rw [F.2]
    rfl
  | set e => exact ⟨rfl, F.2⟩
  | drain e hp =>
    rcases hp with rfl | rfl
    · exact F
    · cases e <;> exact F
  | callback e => exact F
  | inCallback e =>
    cases e with
    | server => exact ⟨F.1, (times_append c.life _ _).trans F.2⟩
    | client => trivial
  | first e pc =>
    have hcreated : (SessionSteps.recvAsync ok c pc).1.life.Fit (.set e) := by
      rcases recvAsync_life ok c pc with heq | ⟨heq, -⟩ <;> rw [heq] <;> exact F
    cases (SessionSteps.recvAsync ok c pc).2 with
    | some pc' => exact hcreated
    | none =>
      cases e with
      | server => trivial
      | client => exact hcreated
  | recvAsync pc => cases (SessionSteps.recvAsync ok c pc).2 <;> trivial
  | onUserDisconnect => exact onUserDisconnect_fits F
  | clearOwner | release => exact F
  | drained pc =>
    cases (SessionSteps.drain c pc).2 with
    | none => trivial
    | some pc' => exact F

/-- What a step leaves alone, except in the destructor. -/
theorem LifeStep.frame {ok : Bool} {c : Cell} {p p' : Stage} {l' : Life}
    (h : LifeStep ok c p l' p') (hends : p.ends = false) :
    (c.sock = true → l'.sock = true) ∧
    l'.times .userDisconnected = c.life.times .userDisconnected ∧
    l'.ownerUser = (p.isSet || c.ownerUser) ∧
    (l'.published = c.published ∨ (∃ e, p = .callback e) ∨ c.ownerUser = true) := by
  have hsame : (c.sock = true → c.life.sock = true) ∧
      c.life.times .userDisconnected = c.life.times .userDisconnected ∧
      c.life.ownerUser = (false || c.ownerUser) ∧
      (c.life.published = c.published ∨ (∃ e, p = .callback e) ∨ c.ownerUser = true) :=
    ⟨id, rfl, rfl, .inl rfl⟩
  cases h with
  | cas =>
    refine ⟨?_, casPending_times c nofun, ?_, ?_⟩
    · unfold Cell.casPending
      split <;> exact id
    · unfold Cell.casPending
      split <;> rfl
    · unfold Cell.casPending
      split <;> exact .inl rfl
  | cancel | newUser _ | inCallback _ | inHandler _ =>
    exact ⟨id, times_append c.life _ _, rfl, .inl rfl⟩
  | set e => exact ⟨fun _ => rfl, rfl, rfl, .inl rfl⟩
  | callback e => exact ⟨id, rfl, rfl, .inr (.inl ⟨e, rfl⟩)⟩
  | handle huser _ => exact ⟨id, times_append c.life _ _, rfl, .inr (.inr huser)⟩
  | first e pc | recvAsync pc =>
    rcases recvAsync_life ok c pc with heq | ⟨heq, -⟩ <;> rw [heq] <;> exact hsame
  | onUserDisconnect | clearOwner | release | drained pc => cases hends
  | _ => exact hsame

/-- The destructor creates nobody, and tells nobody. -/
theorem LifeStep.ended {ok : Bool} {c : Cell} {p p' : Stage} {l' : Life}
    (h : LifeStep ok c p l' p') (hends : p.ends = true) :
    l'.times .created = c.life.times .created ∧ l'.published = c.published := by
  cases h with
  | onUserDisconnect =>
    simp only [destroy]
    split
    · rename_i e _ _
      refine ⟨(times_append c.life _ _).trans ?_, rfl⟩
      cases e <;> rfl
    · exact ⟨rfl, rfl⟩
  | clearOwner | release | drained pc => exact ⟨rfl, rfl⟩
  | _ => cases hends

/-- Other threads do not notice, unless they are on the way to the connection, too. -/
theorem Life.Fit.keep {l l' : Life} {p : Stage} (F : l.Fit p) (K : l.Keeps l')
    (hends : p.ends = false) : l'.Fit p := by
  cases p with
  | coming e => exact K.created.trans F
  | checked e | newUser e | set e | drain e | callback e | inCallback e | first e pc =>
    exact ⟨K.engine e F.1, K.created.trans F.2⟩
  | ending pc => cases hends
  | _ => trivial

/-- The stages before the session has an owner, and those up to the first receive. -/
def Stage.before : Stage → Bool
  | .coming _ | .checked _ | .newUser _ | .set _ => true
  | _ => false

def Stage.connects : Stage → Bool
  | .drain _ | .callback _ | .inCallback _ | .first _ _ => true
  | _ => false

/-- What a stage says of the task. -/
inductive At (task : Task) : Stage → Prop
  | other : At task .other
  | cancel (h : task.asyncPc = some .cancel ∨ task = .disconnect .cancel) : At task .cancel
  | giveUp {id : Nat} {k : IOOperation} (h : task = .delete id (some k)) : At task (.giveUp k)
  | before {p : Stage} (hp : p.before = true) (h : task.early = true) : At task p
  | connects {p : Stage} (hp : p.connects = true) : At task p
  | recv {id : Nat} {pc : RecvPc} (h : task = .recv id pc) : At task (.recv pc)
  | ending {pc : DestroyPc} (h : task = .destroy pc) : At task (.ending pc)

theorem at_stage (task : Task) : At task task.stage := by
  cases task with
  | post e pc => exact .before rfl rfl
  | sendPacket pc =>
    cases pc with
    | sendAsync pc =>
      cases pc with
      | cancel => exact .cancel (.inl rfl)
      | _ => exact .other
    | _ => exact .other
  | send id pc =>
    cases pc with
    | sendAsync pc =>
      cases pc with
      | cancel => exact .cancel (.inl rfl)
      | _ => exact .other
    | _ => exact .other
  | disconnect pc =>
    cases pc with
    | cas => exact .other
    | cancel => exact .cancel (.inr rfl)
  | recv id pc => exact .recv rfl
  | accept id pc =>
    cases pc with
    | cast | setsockopt | getpeername | newUser | set => exact .before rfl rfl
    | drain pc | callback | inCallback | recvAsync pc => exact .connects rfl
  | connect id pc =>
    cases pc with
    | cast | setsockopt | newUser | set => exact .before rfl rfl
    | drain pc | callback | inCallback | recvAsync pc => exact .connects rfl
  | delete id lost =>
    cases lost with
    | none => exact .other
    | some k => exact .giveUp rfl
  | unlock => exact .other
  | destroy pc => exact .ending rfl

theorem ends_destroy {task : Task} (h : task.stage.ends = true) : ∃ pc, task = .destroy pc := by
  have hat := at_stage task
  generalize task.stage = p at h hat
  cases hat with
  | ending htask => exact ⟨_, htask⟩
  | before hp _ | connects hp =>
    cases p with
    | ending pc => cases hp
    | _ => cases h
  | other | cancel _ | giveUp _ | recv _ => cases h

theorem early_of_before {task : Task} (h : task.stage.before = true) : task.early = true := by
  have hat := at_stage task
  generalize task.stage = p at h hat
  cases hat with
  | before _ hearly => exact hearly
  | connects hp =>
    cases p with
    | coming e | checked e | newUser e | set e => cases hp
    | _ => cases h
  | other | cancel _ | giveUp _ | recv _ | ending _ => cases h

/-- An operation that leads to the connection is an old one, or it was posted just now. -/
theorem run_early_op {ok : Bool} {c : Cell} {task : Task} {op : Op}
    (hop : op ∈ (task.run ok c).1.ops) (hearly : op.early = true) :
    (∃ o ∈ c.ops, o.early = true) ∨ ∃ e, task.stage = .coming e := by
  unfold Op.early at hearly
  rcases run_op hop with ⟨o, ho, hkind, -⟩ | ⟨hkind, -⟩ | ⟨hkind, -⟩ | ⟨e, id, rfl, -⟩
  · exact .inl ⟨o, ho, by unfold Op.early; rwa [hkind]⟩
  · rw [hkind] at hearly
    cases hearly
  · rw [hkind] at hearly
    cases hearly
  · exact .inr ⟨e, rfl⟩

namespace Lived

variable {s : Sys T} {t : T} {task : Task}

/-- Whenever a `User` owns the session, or is about to, one was created. -/
theorem created (V : Lived s) (hrefs : 0 < s.cell.refs) (h : s.cell.ownerUser = true) :
    s.cell.life.times .created = 1 := by
  rcases V.owner hrefs with heq | ⟨t, ht⟩
  · rw [heq, h]
    rfl
  · have F := V.stages t
    cases hstage : stageOf (s.tasks t) with
    | set e =>
      rw [hstage] at F
      exact F.2
    | _ =>
      rw [hstage] at ht
      cases ht

/-- What the destructor finds. -/
theorem last (V : Lived s) (L : Laws s) (ht : s.tasks t = some task)
    (hnot : ∀ pc, task ≠ .destroy pc) (hone : s.cell.refs = 1) (hset : task.stage.isSet = false) :
    s.cell.life.Fit (.ending .onUserDisconnect) := by
  have hrefs : 0 < s.cell.refs := by omega
  refine ⟨V.engine hrefs, V.before hrefs, ?_⟩
  rcases V.owner hrefs with heq | ⟨u, hu⟩
  · exact heq
  · have hut : u = t := by
      by_contra hut
      rw [(L.last hone ht hnot).2 u hut] at hu
      cases hu
    subst hut
    rw [ht] at hu
    exact absurd hset (by rw [show task.stage.isSet = true from hu]; exact nofun)

/-- A step of the destructor. -/
theorem destroy (V : Lived s) (L : Laws s) {pc : DestroyPc} (ht : s.tasks t = some (.destroy pc)) (ok : Bool)
    (hlaws : Laws (s.after t ((Task.destroy pc).run ok s.cell))) :
    Lived (s.after t ((Task.destroy pc).run ok s.cell)) := by
  obtain ⟨hrefs, hzero, hothers⟩ := L.destroying ht
  have hstep := run_lifeStep ok s.cell (.destroy pc)
  have F : s.cell.life.Fit (.ending pc) := by
    have F := V.stages t
    rwa [ht] at F
  obtain ⟨hcreated, hpub⟩ := hstep.ended rfl
  have hrefs' : (s.after t ((Task.destroy pc).run ok s.cell)).cell.refs = 0 :=
    (destroy_refs s.cell pc).trans hrefs
  have hops' := (hlaws.unreferenced hrefs').1
  have hvacuous : ∀ {P : Prop}, 0 < (s.after t ((Task.destroy pc).run ok s.cell)).cell.refs → P := by
    intro P hpos
    omega
  refine ⟨?_, ?_, hvacuous, hvacuous, hvacuous, hvacuous, ?_, ?_, ?_⟩
  · refine Sys.forall_after
      (P := fun o => ((Task.destroy pc).run ok s.cell).1.life.Fit (stageOf o)) ?_ fun u hu => ?_
    · exact hstep.fits F fun hone => by omega
    · rw [hothers u hu]
      trivial
  · intro op hop
    rw [hops'] at hop
    exact absurd hop List.not_mem_nil
  · exact hcreated.le.trans V.once
  · intro hpub'
    exact hcreated.trans (V.published (hpub.symm.trans hpub'))
  · intro hgone
    have hgone : 0 < (SessionSteps.destroy s.cell pc).1.destroyed := hgone
    rcases destroy_destroyed s.cell pc with hsame | rfl
    · omega
    · exact F

/-- A step that creates no `User`. -/
theorem go (V : Lived s) (hr : Reachable system s) (L : Laws s) (ht : s.tasks t = some task)
    (hnot : ∀ pc, task ≠ .destroy pc) {ok : Bool}
    (K : s.cell.life.Keeps (task.run ok s.cell).1.life) : Lived (s.after t (task.run ok s.cell)) := by
  have hrefs : 0 < s.cell.refs := L.refs_pos ht hnot
  have hstep := run_lifeStep ok s.cell task
  have hends : task.stage.ends = false := by
    refine Bool.eq_false_of_not_eq_true fun h => ?_
    obtain ⟨pc, heq⟩ := ends_destroy h
    exact hnot pc heq
  have hstage : stageOf (s.tasks t) = task.stage := by
    rw [ht]
    rfl
  have F : s.cell.life.Fit task.stage := hstage ▸ V.stages t
  obtain ⟨hsock, hbefore, howner, hpub⟩ := hstep.frame hends
  have hothers : ∀ u, (stageOf (s.tasks u)).ends = false := by
    intro u
    refine Bool.eq_false_of_not_eq_true fun h => ?_
    cases htask : s.tasks u with
    | none =>
      rw [htask] at h
      cases h
    | some other =>
      rw [htask] at h
      obtain ⟨pc, rfl⟩ := ends_destroy h
      have := (L.destroying htask).1
      omega
  refine ⟨?_, ?_, fun _ => hsock (V.sock hrefs), fun _ => ?_, fun _ => hbefore.trans (V.before hrefs),
    fun _ => ?_, K.created.le.trans V.once, fun hpub' => K.created.trans ?_, fun hgone => ?_⟩
  · refine Sys.forall_after (P := fun o => (task.run ok s.cell).1.life.Fit (stageOf o)) ?_
      fun u _ => (V.stages u).keep K (hothers u)
    exact hstep.fits F fun hone hset => V.last L ht hnot hone hset
  · intro op hop hearly
    refine K.created.trans ?_
    rcases run_early_op hop hearly with ⟨o, ho, hoearly⟩ | ⟨e, hcoming⟩
    · exact V.ops o ho hoearly
    · rw [hcoming] at F
      exact F
  · cases he : s.cell.engine with
    | none => exact absurd he (V.engine hrefs)
    | some e =>
      rw [show (s.after t (task.run ok s.cell)).cell.engine = some e from K.engine e he]
      exact nofun
  · cases hset : task.stage.isSet with
    | true =>
      left
      have hone : s.cell.life.times .created = 1 := by
        cases hp : task.stage with
        | set e =>
          rw [hp] at F
          exact F.2
        | _ =>
          rw [hp] at hset
          cases hset
      rw [hset] at howner
      refine (K.created.trans hone).trans ?_
      rw [show (s.after t (task.run ok s.cell)).cell.ownerUser = true from howner]
      rfl
    | false =>
      rw [hset] at howner
      rcases V.owner hrefs with heq | ⟨u, hu⟩
      · exact .inl ((K.created.trans heq).trans (congrArg Bool.toNat howner.symm))
      · right
        refine ⟨u, ?_⟩
        show (stageOf (update s.tasks t _ u)).isSet = true
        rw [update_of_ne]
        · exact hu
        · rintro rfl
          rw [hstage, hset] at hu
          cases hu
  · rcases hpub with hsame | ⟨e, hcallback⟩ | huser
    · exact V.published (hsame.symm.trans hpub')
    · rw [hcallback] at F
      exact F.2
    · exact V.created hrefs huser
  · rcases run_destroyed hr ht ok with hsame | ⟨pc, heq⟩
    · have hgone : 0 < (task.run ok s.cell).1.destroyed := hgone
      rw [hsame] at hgone
      have := (L.gone hgone).1
      omega
    · exact absurd heq (hnot pc)

/-- The step that creates the `User`. -/
theorem create (V : Lived s) (hr : Reachable system s) (L : Laws s) (ht : s.tasks t = some task)
    {ok : Bool} {e : Engine} (hp : task.stage = .newUser e)
    (hlife : (task.run ok s.cell).1.life = { s.cell.life with log := s.cell.log ++ [.created] }) :
    Lived (s.after t (task.run ok s.cell)) := by
  have hnot : ∀ pc, task ≠ .destroy pc := by
    rintro pc rfl
    cases hp
  have hrefs : 0 < s.cell.refs := L.refs_pos ht hnot
  have hstep := run_lifeStep ok s.cell task
  have F : s.cell.life.Fit (.newUser e) := by
    have F := V.stages t
    rw [ht] at F
    exact hp ▸ F
  have hzero : s.cell.life.times .created = 0 := F.2
  obtain ⟨hops, -, hsole⟩ := L.sole_receiver ht (early_receives (early_of_before (hp ▸ rfl)))
  have hcreated : (task.run ok s.cell).1.life.times .created = 1 := by
    rw [hlife]
    refine (times_append s.cell.life _ _).trans ?_
    rw [hzero]
    rfl
  refine ⟨?_, fun op hop hearly => ?_, fun _ => ?_, fun _ => ?_, fun _ => ?_, fun _ => ?_,
    hcreated.le, fun _ => hcreated, fun hgone => ?_⟩
  · refine Sys.forall_after (P := fun o => (task.run ok s.cell).1.life.Fit (stageOf o)) ?_
      fun u hu => ?_
    · refine hstep.fits (hp ▸ F) fun hone hset => ?_
      exact V.last L ht hnot hone hset
    · have Fu := V.stages u
      have hnone : ∀ other, s.tasks u = some other → other.stage.before = false ∧
          other.stage.ends = false := by
        intro other hother
        refine ⟨Bool.eq_false_of_not_eq_true fun h => ?_, Bool.eq_false_of_not_eq_true fun h => ?_⟩
        · have hpos := early_receives (early_of_before h)
          have hwait := hsole u hu
          rw [hother] at hwait
          have hwait : other.receives = 0 := hwait
          omega
        · obtain ⟨pc, rfl⟩ := ends_destroy h
          have := (L.destroying hother).1
          omega
      cases htask : s.tasks u with
      | none => trivial
      | some other =>
        obtain ⟨hbefore, hends⟩ := hnone other htask
        rw [htask] at Fu
        show Life.Fit _ other.stage
        have Fu : s.cell.life.Fit other.stage := Fu
        cases hstage : other.stage with
        | coming _ | checked _ | newUser _ | set _ =>
          rw [hstage] at hbefore
          cases hbefore
        | drain _ | callback _ | inCallback _ | first _ _ =>
          rw [hstage] at Fu
          exact absurd (hzero.symm.trans Fu.2) nofun
        | ending _ =>
          rw [hstage] at hends
          cases hends
        | other | cancel | giveUp _ | recv _ => trivial
  · rcases run_early_op hop hearly with ⟨o, ho, hoearly⟩ | ⟨e', hcoming⟩
    · rw [Op.early_receives (hops o ho)] at hoearly
      cases hoearly
    · rw [hp] at hcoming
      cases hcoming
  · have hsock : (task.run ok s.cell).1.sock = s.cell.sock := congrArg Life.sock hlife
    exact hsock.trans (V.sock hrefs)
  · have hengine : (task.run ok s.cell).1.engine = s.cell.engine := congrArg Life.engine hlife
    exact fun h => V.engine hrefs (hengine.symm.trans h)
  · show (task.run ok s.cell).1.life.times .userDisconnected = 0
    rw [hlife]
    exact (times_append s.cell.life _ _).trans (V.before hrefs)
  · right
    refine ⟨t, ?_⟩
    show (stageOf (update s.tasks t _ t)).isSet = true
    rw [update_self]
    rw [hp] at hstep
    generalize stageOf (task.run ok s.cell).2 = p' at hstep
    generalize (task.run ok s.cell).1.life = l' at hstep
    cases hstep
    rfl
  · rcases run_destroyed hr ht ok with hsame | ⟨pc, heq⟩
    · have hgone : 0 < (task.run ok s.cell).1.destroyed := hgone
      rw [hsame] at hgone
      have := (L.gone hgone).1
      omega
    · exact absurd heq (hnot pc)

end Lived

theorem handler_fits {l : Life} {op : Op} (n : Nat) (h : op.early = true → l.times .created = 0) :
    l.Fit (op.handler n).stage := by
  obtain ⟨id, operation, wsa, room, done⟩ := op
  cases operation with
  | recv | send =>
    show l.Fit (Task.stage (if n = 0 then _ else _))
    split <;> trivial
  | accept | connect => exact h rfl

/-- **The rule for the `User`.** -/
theorem lived {s : Sys T} (h : Reachable system s) : Lived s := by
  apply h.invariant (I := Lived)
  · rintro _ ⟨e, mem, b, hb, t, rfl⟩
    refine ⟨?_, fun op hop => absurd hop List.not_mem_nil, fun _ => rfl, fun _ => nofun, fun _ => rfl,
      fun _ => .inl rfl, Nat.zero_le 1, nofun, fun hpos => absurd hpos (Nat.lt_irrefl 0)⟩
    exact Sys.forall_new (P := fun o => (Cell.new e (.new mem b hb)).life.Fit (stageOf o)) rfl trivial
  · intro s s' hr V hnext
    obtain ⟨L, -⟩ := lawful hr
    rcases step_does hnext with ⟨t, r, hdoes, rfl⟩ | ⟨op, chunk, hmem, hdone, hroom, rfl⟩
    · generalize hpre : s.tasks t = pre at hdoes
      have howner : ∀ r : Cell × Option Task, (∃ u, (stageOf (s.tasks u)).isSet = true) →
          (stageOf pre).isSet = false → ∃ u, (stageOf ((s.after t r).tasks u)).isSet = true := by
        rintro r ⟨u, hu⟩ hset
        refine ⟨u, ?_⟩
        show (stageOf (update s.tasks t _ u)).isSet = true
        rw [update_of_ne]
        · exact hu
        · rintro rfl
          rw [hpre, hset] at hu
          cases hu
      cases hdoes with
      | sendPacket m hpub hrefs | disconnect hpub hrefs =>
        refine ⟨?_, V.ops, fun _ => V.sock hrefs, fun _ => V.engine hrefs, fun _ => V.before hrefs,
          fun _ => (V.owner hrefs).imp id fun hex => howner _ hex rfl, V.once, V.published, V.gone⟩
        exact Sys.forall_after (P := fun o => s.cell.life.Fit (stageOf o)) trivial
          fun u _ => V.stages u
      | @take op n hmem hdone =>
        refine ⟨?_, fun o ho => V.ops o (List.mem_of_mem_erase ho), V.sock, V.engine, V.before,
          fun hrefs => (V.owner hrefs).imp id fun hex => howner _ hex rfl, V.once, V.published, V.gone⟩
        refine Sys.forall_after (P := fun o => s.cell.life.Fit (stageOf o)) ?_ fun u _ => V.stages u
        exact handler_fits n (V.ops op hmem)
      | run task ok =>
        cases hends : task.stage.ends with
        | true =>
          obtain ⟨pc, rfl⟩ := ends_destroy hends
          exact V.destroy L hpre ok (lawful (.step hr hnext)).1
        | false =>
          have hnot : ∀ pc, task ≠ .destroy pc := by
            rintro pc rfl
            cases hends
          have F : s.cell.life.Fit task.stage := by
            have F := V.stages t
            rwa [hpre] at F
          rcases (run_lifeStep ok s.cell task).keeps F hends with K | ⟨⟨e, hp⟩, hlife⟩
          · exact V.go hr L hpre hnot K
          · exact V.create hr L hpre hp hlife
    · refine ⟨V.stages, fun o ho hearly => ?_, V.sock, V.engine, V.before, V.owner, V.once, V.published,
        V.gone⟩
      rcases List.mem_cons.mp ho with rfl | ho
      · exact V.ops op hmem hearly
      · exact V.ops o (List.mem_of_mem_erase ho) hearly

end JunCore.SessionSteps
