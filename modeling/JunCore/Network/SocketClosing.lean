/-
  Who closes a socket, and how often.

  A session owns its socket: `Release`, in the destructor, closes it.  The error exits behind the making
  of the session close it as well, and do not tell the session.  So the destructor calls `closesocket`
  again (`closes_at_end`), with a value that may stand for another socket by then
  (`closed_for_another`).  In a run that takes none of these exits each socket is closed once, and each
  call closes the socket it is meant for (`sockets_closed_once`).
-/
import JunCore.Network.SocketSteps

set_option linter.unusedVariables false

namespace JunCore.SocketSteps

open Transition Handles
open SessionSteps (Engine)

/-! ## The session of a socket -/

/-- The handling's own references are among those that are counted; a session that is not referenced
    is not there, or in its destructor; and one that is there has the socket. -/
structure Socket.Sound (x : Socket) : Prop where
  held : x.held ≤ x.session.refs
  unreferenced : x.stage.lives = false → x.session.refs = 0
  sock : x.stage.lives = true ∨ x.stage = .release → x.session.sock = some x.value

theorem lives_of_overlapped {p : Stage} (h : p.overlapped = true) : p.lives = true := by
  cases p with
  | idle => cases h
  | _ => exact h

theorem lives_of_called {p : Stage} (h : p.called = true) : p.lives = true := by
  cases p with
  | post pc => cases h
  | _ => exact h

theorem lives_of_early {p : Stage} (h : p.early = true) : p.lives = false ∧ p.closed = false := by
  cases p with
  | post pc =>
    cases pc with
    | bind | register | refused => exact ⟨rfl, rfl⟩
    | _ => cases h
  | _ => cases h

theorem closed_of_lives {p : Stage} (h : p.lives = true) : p.closed = false := by
  cases p with
  | set | ended => cases h
  | _ => rfl

theorem held_of_lives {x : Socket} (h : x.stage.lives = true) :
    x.held = x.stage.overlapped.toNat + x.posting.toNat := by
  unfold Socket.held
  rw [h, Bool.and_true]

theorem held_of_overlapped {x : Socket} (h : x.stage.overlapped = true) :
    x.held = 1 + x.posting.toNat := by
  rw [held_of_lives (lives_of_overlapped h), h]
  rfl

theorem held_of_not_lives {x : Socket} (h : x.stage.lives = false) : x.held = 0 := by
  have hover : x.stage.overlapped = false := by
    cases hover : x.stage.overlapped with
    | false => rfl
    | true =>
      rw [lives_of_overlapped hover] at h
      cases h
  unfold Socket.held
  rw [h, hover, Bool.and_false]
  rfl

/-- Where there is no session, or none any more. -/
theorem Socket.Sound.of_gone {x : Socket} (hlives : x.stage.lives = false)
    (hrelease : x.stage ≠ .release) (hrefs : x.session.refs = 0) : x.Sound := by
  refine ⟨?_, fun _ => hrefs, ?_⟩
  · rw [held_of_not_lives hlives]
    exact Nat.zero_le _
  · rintro (hlives' | hrelease')
    · rw [hlives] at hlives'
      cases hlives'
    · exact absurd hrelease' hrelease

/-- A session that is not referenced any more goes into its destructor. -/
theorem Socket.Sound.drop {x : Socket} (S : x.Sound) (hlives : x.stage.lives = true) (posting : Bool)
    {p : Stage} (hp : p.lives = true)
    (hheld : x.session.refs ≠ 1 → p.overlapped.toNat + posting.toNat + 1 ≤ x.session.refs) :
    ({ x.drop p with posting := posting } : Socket).Sound := by
  have hsock := S.sock (.inl hlives)
  by_cases hone : x.session.refs = 1
  · have hstage : ({ x.drop p with posting := posting } : Socket).stage = .release := if_pos hone
    refine ⟨?_, fun _ => ?_, fun _ => hsock⟩
    · rw [held_of_not_lives (by rw [hstage]; rfl)]
      exact Nat.zero_le _
    · show x.session.refs - 1 = 0
      omega
  · have hstage : ({ x.drop p with posting := posting } : Socket).stage = p := if_neg hone
    refine ⟨?_, fun hnot => ?_, fun _ => hsock⟩
    · rw [held_of_lives (by rw [hstage]; exact hp), hstage]
      show p.overlapped.toNat + posting.toNat ≤ x.session.refs - 1
      have := hheld hone
      omega
    · rw [hstage, hp] at hnot
      cases hnot

theorem Moves.sound {x x' : Socket} (h : Moves x x') (S : x.Sound) : x'.Sound := by
  cases h with
  | @early p hx hp =>
    refine .of_gone (lives_of_early hp).1 ?_ (S.unreferenced (lives_of_early hx).1)
    rintro rfl
    cases hp
  | make hx =>
    refine ⟨?_, ?_, fun _ => rfl⟩
    · show (_ : Bool).toNat + (_ : Bool).toNat ≤ 2
      exact Nat.add_le_add (Bool.toNat_le _) (Bool.toNat_le _)
    · unfold Socket.makeSession
      dsimp only
      split <;> exact nofun
  | @goTo p hx hp =>
    have hlives := lives_of_overlapped hp
    refine ⟨?_, fun hnot => absurd (hnot.symm.trans hlives) nofun,
      fun _ => S.sock (.inl (lives_of_overlapped hx))⟩
    rw [held_of_overlapped (x := x.goTo p) hp]
    exact held_of_overlapped hx ▸ S.held
  | @set p e hx hp =>
    have hlives := lives_of_overlapped hp
    refine ⟨?_, fun hnot => absurd (hnot.symm.trans hlives) nofun,
      fun _ => S.sock (.inl (lives_of_overlapped hx))⟩
    rw [held_of_overlapped (x := { x with stage := p, session := _ }) hp]
    exact held_of_overlapped hx ▸ S.held
  | drop hx =>
    refine S.drop (lives_of_overlapped hx) x.posting rfl fun _ => ?_
    have hheld := S.held
    rw [held_of_overlapped hx] at hheld
    show 0 + x.posting.toNat + 1 ≤ _
    omega
  | leave hposting hx =>
    have hlives := lives_of_called hx
    refine S.drop hlives _ hlives fun hone => ?_
    have hheld := S.held
    rw [held_of_lives hlives, hposting] at hheld
    rw [decide_eq_false hone]
    exact hheld
  | share hx =>
    refine ⟨Nat.le_succ_of_le S.held, fun hnot => absurd (hnot.symm.trans hx) nofun,
      fun _ => S.sock (.inl hx)⟩
  | unshare hx hheld =>
    refine S.drop hx x.posting hx fun _ => ?_
    rw [held_of_lives hx] at hheld
    exact hheld
  | finish hx =>
    exact .of_gone rfl nofun (S.unreferenced (by rw [hx]; rfl))

/-- The last reference takes no socket with it that was closed. -/
theorem drop_closed (x : Socket) {p : Stage} (hp : p.lives = true) :
    (x.drop p).stage.closed = false := by
  show (if x.session.refs = 1 then Stage.release else p).closed = false
  split
  · rfl
  · exact closed_of_lives hp

theorem Moves.same {x x' : Socket} (h : Moves x x') :
    x'.value = x.value ∧ x'.stage.closed = x.stage.closed := by
  cases h with
  | early hx hp => exact ⟨rfl, (lives_of_early hp).2.trans (lives_of_early hx).2.symm⟩
  | make hx =>
    refine ⟨rfl, Eq.trans ?_ (lives_of_early hx).2.symm⟩
    unfold Socket.makeSession
    dsimp only
    split <;> rfl
  | goTo hx hp | set _ hx hp =>
    exact ⟨rfl, (closed_of_lives (lives_of_overlapped hp)).trans
      (closed_of_lives (lives_of_overlapped hx)).symm⟩
  | drop hx => exact ⟨rfl, (drop_closed x rfl).trans (closed_of_lives (lives_of_overlapped hx)).symm⟩
  | leave _ hx =>
    have hlives := lives_of_called hx
    exact ⟨rfl, (drop_closed x hlives).trans (closed_of_lives hlives).symm⟩
  | share hx => exact ⟨rfl, rfl⟩
  | unshare hx _ => exact ⟨rfl, (drop_closed x hx).trans (closed_of_lives hx).symm⟩
  | finish hx =>
    rw [hx]
    exact ⟨rfl, rfl⟩

/-- What is closed is the socket, and it had not been closed at the end of its way. -/
theorem Closes.sound {x x' : Socket} {sock : Option Nat} {onError : Bool}
    (h : Closes x sock onError x') (S : x.Sound) : x'.Sound ∧ sock = some x.value ∧
      x'.value = x.value ∧ x.stage.closed = false ∧ x'.stage.closed = !onError ∧
        (onError = true → x.stage.onError = true) := by
  cases h with
  | refused hx =>
    have hrefs : x.session.refs = 0 := S.unreferenced (by rw [hx]; rfl)
    exact ⟨.of_gone rfl nofun hrefs, rfl, rfl, by rw [hx]; rfl, rfl, nofun⟩
  | failed hx =>
    have hover : x.stage.overlapped = true := by rw [hx]; rfl
    exact ⟨(Moves.goTo hover rfl).sound S, rfl, rfl, by rw [hx]; rfl, rfl, fun _ => by rw [hx]; rfl⟩
  | handler hx hover hp =>
    exact ⟨(Moves.goTo hover hp).sound S, S.sock (.inl (lives_of_overlapped hover)), rfl,
      closed_of_lives (lives_of_overlapped hover), closed_of_lives (lives_of_overlapped hp),
      fun _ => hx⟩
  | release hx =>
    have hrefs : x.session.refs = 0 := S.unreferenced (by rw [hx]; rfl)
    exact ⟨.of_gone rfl nofun hrefs, S.sock (.inr hx), rfl, by rw [hx]; rfl, rfl, nofun⟩

/-! ## The calls of `closesocket` -/

theorem World.put_get {w : World} {i j : Nat} {x y : Socket} (h : (w.put i x).sockets[j]? = some y) :
    j = i ∧ y = x ∨ j ≠ i ∧ w.sockets[j]? = some y := by
  have h : (w.sockets.set i x)[j]? = some y := h
  by_cases hj : j = i
  · subst hj
    have hlt : j < (w.sockets.set j x).length := (List.getElem?_eq_some_iff.mp h).1
    rw [List.length_set] at hlt
    rw [List.getElem?_set_self hlt] at h
    exact .inl ⟨rfl, (Option.some.inj h).symm⟩
  · rw [List.getElem?_set_ne (Ne.symm hj)] at h
    exact .inr ⟨hj, h⟩

theorem World.socket_get {w : World} {e : Engine} {v j : Nat} {y : Socket}
    (h : (w.socket e v).sockets[j]? = some y) : w.sockets[j]? = some y ∨
      j = w.sockets.length ∧ y.stage.early = true ∧ y.value = v ∧ y.session.refs = 0 := by
  have hlt := (List.getElem?_eq_some_iff.mp h).1
  have hlen : (w.socket e v).sockets.length = w.sockets.length + 1 := List.length_append
  rcases Nat.lt_or_ge j w.sockets.length with hold | hnew
  · left
    rw [← h]
    exact (List.getElem?_append_left hold).symm
  · right
    obtain rfl : j = w.sockets.length := by omega
    have hget : (w.socket e v).sockets[w.sockets.length]? = some _ := List.getElem?_concat_length
    rw [hget] at h
    obtain rfl := Option.some.inj h
    refine ⟨rfl, ?_, rfl, rfl⟩
    cases e <;> rfl

/-- How often a socket was closed at the end of its way. -/
def World.ends (w : World) (i : Nat) : Nat := w.closes.countP fun c => c.socket = i && !c.onError

/-- And on error exits. -/
def World.errors (w : World) (i : Nat) : Nat := w.closes.countP fun c => c.socket = i && c.onError

/-- How often it was passed to `closesocket`. -/
def World.closesOf (w : World) (i : Nat) : Nat := w.closes.countP fun c => c.socket = i

theorem closesOf_eq (w : World) (i : Nat) : w.closesOf i = w.ends i + w.errors i := by
  unfold World.closesOf World.ends World.errors
  induction w.closes with
  | nil => rfl
  | cons c l ih =>
    rw [List.countP_cons, List.countP_cons, List.countP_cons, ih]
    by_cases hi : c.socket = i
    · cases c.onError <;> simp [hi] <;> omega
    · simp [hi]

/-- **What there is to know of all sockets.** -/
structure Kept (w : World) : Prop where
  sound : ∀ (i : Nat) (x : Socket), w.sockets[i]? = some x → x.Sound
  ends : ∀ (i : Nat) (x : Socket), w.sockets[i]? = some x → w.ends i = x.stage.closed.toNat
  known : ∀ c ∈ w.closes, c.socket < w.sockets.length

theorem Kept.put {w : World} (K : Kept w) {i : Nat} {x x' : Socket} (hx : w.sockets[i]? = some x)
    (S : x'.Sound) (hclosed : x'.stage.closed = x.stage.closed) : Kept (w.put i x') := by
  refine ⟨fun j y hy => ?_, fun j y hy => ?_, fun c hc => ?_⟩
  · rcases World.put_get hy with ⟨-, rfl⟩ | ⟨-, hy⟩
    · exact S
    · exact K.sound j y hy
  · rcases World.put_get hy with ⟨rfl, rfl⟩ | ⟨-, hy⟩
    · exact (K.ends j x hx).trans (congrArg Bool.toNat hclosed.symm)
    · exact K.ends j y hy
  · exact (K.known c hc).trans_eq List.length_set.symm

theorem Kept.close {w : World} (K : Kept w) {i : Nat} {x x' : Socket} {onError : Bool}
    (hx : w.sockets[i]? = some x) (S : x'.Sound) (hopen : x.stage.closed = false)
    (hclosed : x'.stage.closed = !onError) :
    Kept ((w.closesocket i (some x.value) onError).put i x') := by
  have hends : ∀ j, ((w.closesocket i (some x.value) onError).put i x').ends j
      = w.ends j + if i = j ∧ onError = false then 1 else 0 := by
    intro j
    show (w.closes ++ [_]).countP _ = _
    rw [List.countP_append, List.countP_singleton]
    refine congrArg (w.ends j + ·) ?_
    cases onError <;> simp
  refine ⟨fun j y hy => ?_, fun j y hy => ?_, fun c hc => ?_⟩
  · rcases World.put_get hy with ⟨-, rfl⟩ | ⟨-, hy⟩
    · exact S
    · exact K.sound j y hy
  · rw [hends]
    rcases World.put_get hy with ⟨rfl, rfl⟩ | ⟨hne, hy⟩
    · rw [K.ends j x hx, hopen, hclosed]
      cases onError <;> simp
    · rw [if_neg fun h => hne h.1.symm]
      exact K.ends j y hy
  · have hlen : ((w.closesocket i (some x.value) onError).put i x').sockets.length
        = w.sockets.length := List.length_set
    rw [hlen]
    rcases List.mem_append.mp hc with hc | hc
    · exact K.known c hc
    · obtain rfl := List.mem_singleton.mp hc
      exact (List.getElem?_eq_some_iff.mp hx).1

theorem Kept.socket {w : World} (K : Kept w) (e : Engine) (v : Nat) : Kept (w.socket e v) := by
  have hlen : (w.socket e v).sockets.length = w.sockets.length + 1 := List.length_append
  refine ⟨fun j y hy => ?_, fun j y hy => ?_, fun c hc => ?_⟩
  · rcases World.socket_get hy with hy | ⟨-, hearly, -, hrefs⟩
    · exact K.sound j y hy
    · refine .of_gone (lives_of_early hearly).1 ?_ hrefs
      intro hrelease
      rw [hrelease] at hearly
      cases hearly
  · rcases World.socket_get hy with hy | ⟨rfl, hearly, -, -⟩
    · exact K.ends j y hy
    · rw [(lives_of_early hearly).2]
      refine List.countP_eq_zero.mpr fun c hc => ?_
      have hlt := K.known c hc
      simp
      omega
  · rw [hlen]
    exact Nat.lt_succ_of_lt (K.known c hc)

theorem Kept.step {w w' : World} (K : Kept w) (h : Steps w w') : Kept w' := by
  cases h with
  | socket e hfree => exact K.socket e _
  | accept hx hover hp hfree =>
    have M := Moves.goTo hover hp
    exact (K.put hx (M.sound (K.sound _ _ hx)) M.same.2).socket .server _
  | moves hx M => exact K.put hx (M.sound (K.sound _ _ hx)) M.same.2
  | closes hx C =>
    obtain ⟨S, rfl, -, hopen, hclosed, -⟩ := C.sound (K.sound _ _ hx)
    exact K.close hx S hopen hclosed

theorem kept {w : World} (h : Reachable system w) : Kept w := by
  apply h.invariant (I := Kept)
  · rintro _ rfl
    have hnone : ∀ (i : Nat) (x : Socket), ([] : List Socket)[i]? ≠ some x :=
      fun i x => (Option.some_ne_none x).symm
    exact ⟨fun i x hx => absurd hx (hnone i x), fun i x hx => absurd hx (hnone i x),
      fun c hc => absurd hc List.not_mem_nil⟩
  · intro w w' hr K hnext
    exact K.step (steps_of_next hnext)

/-- **What an error exit leads to**: at the end of its way a socket has been passed to `closesocket`
    once, and once more if it took one. -/
theorem closes_at_end {w : World} (h : Reachable system w) {i : Nat}
    (hend : w.stageOf i = some .ended) : w.closesOf i = 1 + w.errors i := by
  obtain ⟨x, hx, hstage⟩ := Option.map_eq_some_iff.mp hend
  have hends := (kept h).ends i x hx
  rw [hstage] at hends
  rw [closesOf_eq, hends]
  rfl

/-! ## Runs without error exits -/

/-- No error exit is taken that closes the socket of a session. -/
def Proceeds (w w' : World) : Prop := ∀ x ∈ w'.sockets, x.stage.onError = false

/-- The value of a socket that the code has not closed. -/
def World.value (w : World) (i : Nat) : Option Nat :=
  w.sockets[i]?.bind fun x => if x.stage.closed then none else some x.value

theorem value_of_get {w : World} {i : Nat} {x : Socket} (hx : w.sockets[i]? = some x)
    (hopen : x.stage.closed = false) : w.value i = some x.value := by
  unfold World.value
  rw [hx]
  exact if_neg (by rw [hopen]; exact Bool.false_ne_true)

theorem value_put {w : World} {i : Nat} {x x' : Socket} (hx : w.sockets[i]? = some x)
    (hvalue : x'.value = x.value) (hclosed : x'.stage.closed = x.stage.closed) :
    (w.put i x').value = w.value := by
  funext j
  show (w.sockets.set i x')[j]?.bind _ = w.sockets[j]?.bind _
  by_cases hj : i = j
  · subst hj
    rw [List.getElem?_set_self (List.getElem?_eq_some_iff.mp hx).1, hx]
    show (if x'.stage.closed then none else some x'.value) = _
    rw [hvalue, hclosed]
    rfl
  · rw [List.getElem?_set_ne hj]

theorem value_close {w : World} {i : Nat} {x x' : Socket} (hx : w.sockets[i]? = some x)
    (hclosed : x'.stage.closed = true) :
    (w.put i x').value = Function.update w.value i none := by
  funext j
  show (w.sockets.set i x')[j]?.bind _ = _
  by_cases hj : i = j
  · subst hj
    rw [List.getElem?_set_self (List.getElem?_eq_some_iff.mp hx).1, Function.update_self]
    exact if_pos hclosed
  · rw [List.getElem?_set_ne hj, Function.update_of_ne (Ne.symm hj)]
    rfl

theorem value_socket (w : World) (e : Engine) (v : Nat) :
    (w.socket e v).value = Function.update w.value w.sockets.length (some v) := by
  funext j
  by_cases hj : j = w.sockets.length
  · subst hj
    have hget : (w.socket e v).sockets[w.sockets.length]? = some _ := List.getElem?_concat_length
    rw [Function.update_self]
    refine value_of_get hget ?_
    cases e <;> rfl
  · rw [Function.update_of_ne hj]
    show (w.sockets ++ [_])[j]?.bind _ = w.sockets[j]?.bind _
    rcases Nat.lt_or_ge j w.sockets.length with hlt | hge
    · rw [List.getElem?_append_left hlt]
    · rw [List.getElem?_eq_none hge, List.getElem?_eq_none]
      rw [List.length_append, List.length_singleton]
      omega

/-- **Every socket is open under its value until it is closed**, and no call closed another. -/
structure Owned (w : World) : Prop where
  holds : Holds w.table w.value
  closes : ∀ c ∈ w.closes, c.onError = false ∧ c.hit = some c.socket
  proceeds : ∀ x ∈ w.sockets, x.stage.onError = false

/-- What a step keeps, if it goes to no error exit. -/
theorem Owned.step {w w' : World} (O : Owned w) (K : Kept w) (h : Steps w w')
    (hproceeds : ∀ x ∈ w'.sockets, x.stage.onError = false) : Owned w' := by
  have hsocket : ∀ (w : World) e v, Holds w.table w.value → w.table v = none →
      Holds (w.socket e v).table (w.socket e v).value := by
    intro w e v hholds hfree
    rw [value_socket]
    exact hholds.give hfree
  cases h with
  | socket e hfree => exact ⟨hsocket w e _ O.holds hfree, O.closes, hproceeds⟩
  | @accept i v x p hx hover hp hfree =>
    have M := Moves.goTo hover hp
    refine ⟨hsocket (w.put i (x.goTo p)) .server _ ?_ hfree, O.closes, hproceeds⟩
    rw [value_put hx M.same.1 M.same.2]
    exact O.holds
  | moves hx M =>
    refine ⟨?_, O.closes, hproceeds⟩
    rw [value_put hx M.same.1 M.same.2]
    exact O.holds
  | @closes i x x' sock onError hx C =>
    obtain ⟨-, rfl, -, hopen, hclosed, herror⟩ := C.sound (K.sound _ _ hx)
    have hno : onError = false := by
      cases onError with
      | false => rfl
      | true => exact (herror rfl).symm.trans (O.proceeds x (List.mem_of_getElem? hx))
    subst hno
    have hvalue := value_of_get hx hopen
    refine ⟨?_, fun c hc => ?_, hproceeds⟩
    · rw [value_close (w := w.closesocket i (some x.value) false) hx hclosed]
      exact O.holds.close hvalue
    · rcases List.mem_append.mp hc with hc | hc
      · exact O.closes c hc
      · obtain rfl := List.mem_singleton.mp hc
        exact ⟨rfl, O.holds i _ hvalue⟩

theorem owned {w : World} (h : Reachable (system.guard Proceeds) w) : Owned w := by
  apply h.invariant (I := Owned)
  · rintro _ rfl
    exact ⟨fun i v hv => absurd hv (Option.some_ne_none v).symm,
      fun c hc => absurd hc List.not_mem_nil, fun x hx => absurd hx List.not_mem_nil⟩
  · rintro w w' hg O ⟨hnext, hproceeds⟩
    exact O.step (kept hg.of_guard) (steps_of_next hnext) hproceeds

/-- **Sockets are closed once**: in a run without these exits, a socket whose session has been destroyed,
    or that never got one, was passed to `closesocket` once, and no call has closed another socket
    than the one it was meant for. -/
theorem sockets_closed_once {w : World} (h : Reachable (system.guard Proceeds) w) :
    (∀ i, w.stageOf i = some .ended → w.closesOf i = 1) ∧
    ∀ c ∈ w.closes, c.hit = some c.socket := by
  have O := owned h
  refine ⟨fun i hend => ?_, fun c hc => (O.closes c hc).2⟩
  have hnone : w.errors i = 0 := List.countP_eq_zero.mpr fun c hc => by
    rw [(O.closes c hc).1, Bool.and_false]
    exact Bool.false_ne_true
  rw [closes_at_end h.of_guard hend, hnone]

/-! ## Schedules -/

theorem step_next (w : World) (a : Act) (w' : World) (h : step w a = some w') : system.next w w' :=
  ⟨a, h⟩

/-- The code goes on with a socket, and all it asks of the system succeeds. -/
def goes (i n : Nat) : List Act := List.replicate n (.go i true 0)

def proceeds (w w' : World) : Bool := w'.sockets.all fun x => !x.stage.onError

theorem proceeds_spec (w w' : World) (h : proceeds w w' = true) : Proceeds w w' := by
  intro x hx
  have hx := List.all_eq_true.mp h x hx
  rwa [Bool.not_eq_true'] at hx

/-- A connection is accepted and handled, and nobody wants anything of it. -/
theorem sockets_closed_once_one : ∃ w : World, w.closesOf 0 = 1 ∧
    ∃ c ∈ w.closes, c.hit = some 0 := by
  obtain ⟨w, hr, hp⟩ := exists_reachable_of_exec (M := system.guard Proceeds) rfl
    (next_of_gate (M := system) step_next proceeds_spec)
    (.post .server 0 :: goes 0 2 ++ .leave 0 :: .complete 0 :: goes 0 5 ++
      .go 0 false 0 :: goes 0 3)
    (fun w => decide (w.stageOf 0 = some .ended ∧ ∃ c ∈ w.closes, c.socket = 0))
    (by decide)
  obtain ⟨hend, c, hc, hzero⟩ := of_decide_eq_true hp
  obtain ⟨hclosed, hhits⟩ := sockets_closed_once hr
  exact ⟨w, hclosed 0 hend, c, hc, hzero ▸ hhits c hc⟩

/-- `setsockopt` fails for the accepted socket.  The handler closes it, and the `PostAcceptEx` for the next
    session is given the same value; then the session of the first socket is destroyed. -/
def staleHandle : List Act :=
  .post .server 0 :: goes 0 2 ++ .leave 0 :: .complete 0 :: .go 0 true 0 :: .go 0 false 0 ::
    goes 0 2 ++ goes 1 2 ++ .leave 1 :: goes 0 4

/-- **The next socket is closed**, while its `AcceptEx` is pending. -/
theorem closed_for_another : ∃ w : World, Reachable system w ∧
    w.stageOf 0 = some .ended ∧ w.closesOf 0 = 2 ∧
    w.stageOf 1 = some .pending ∧ ∃ c ∈ w.closes, c.socket = 0 ∧ c.hit = some 1 := by
  obtain ⟨w, hr, hp⟩ := exists_reachable_of_exec (M := system) rfl step_next staleHandle
    (fun w => decide (w.stageOf 0 = some .ended ∧ w.closesOf 0 = 2 ∧
      w.stageOf 1 = some .pending ∧ ∃ c ∈ w.closes, c.socket = 0 ∧ c.hit = some 1))
    (by decide)
  exact ⟨w, hr, of_decide_eq_true hp⟩

end JunCore.SocketSteps
