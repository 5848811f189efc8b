/-
  The five operations that move a node, and the step lemma.

  `Fits.take`, `Fits.unlink` and `Fits.give` write down a layout in which one node has moved, and
  `Moved.fits` checks it place by place.  `Fits.link` moves all that a thread holds.  This is where the
  rank of the producers is needed: the node a producer links behind may be in the hands of another one,
  but never in its own.

  `Fits.step` puts them together: every operation has one of the effects, or none, and the layout fits
  again afterwards.
-/
import JunCore.Common.LFQueueEffects
import Mathlib.Data.Fintype.Lattice

set_option linter.unusedVariables false

namespace JunCore.LFQueueSteps

open Function Transition Linked

variable {T α : Type} [DecidableEq T] {L : Layout T} {s : Sys T α} {t : T}

variable {m' : Mem α} {pc' : Option (Pc α)} {e : Option (Event α)}

/-- What the other threads hold is not touched when nothing but an empty link is written, and no
    node of theirs is in it. -/
theorem Holds.Agrees.keep {next next' : Nat → Option Nat} {h : Holds} {l : List Nat}
    (A : h.Agrees next l) (hfill : ∀ p n, p ∈ l → next p = some n → next' p = some n)
    (hsame : ∀ p, h = .built p → ∀ q ∈ l, next' q = next q) : h.Agrees next' l := by
  cases h with
  | nothing => exact A
  | raw p | spent p =>
    refine ⟨A.1, fun hnone => A.2 ?_⟩
    cases hp : next p with
    | none => rfl
    | some n =>
      rw [hfill p n (A.1 ▸ List.mem_cons_self) hp] at hnone
      cases hnone
  | built p => exact Chain.congr A (hsame p rfl)

/-! ## One node moves -/

/-- `L'` is `L` with the node `p` at `dest`, where thread `t` has put it. -/
structure Moved (L L' : Layout T) (t : T) (p : Nat) (dest : Place T) : Prop where
  place : L'.place = update L.place p dest
  chain : ∀ q, q ∈ L'.chain ↔ q = p ∧ dest = .queue ∨ q ≠ p ∧ q ∈ L.chain
  free : ∀ q, q ∈ L'.free ↔ q = p ∧ dest = .pool ∨ q ≠ p ∧ q ∈ L.free
  mine : ∀ q, q ∈ L'.mine t ↔ q = p ∧ dest = .thread t ∨ q ≠ p ∧ q ∈ L.mine t
  others : ∀ u, u ≠ t → L'.mine u = L.mine u ∧ L'.rank u = L.rank u
  mover : ∀ u, u ≠ t → L.place p ≠ .thread u ∧ dest ≠ .thread u
  somewhere : dest ≠ .nowhere

/-- A list that the node neither leaves nor joins. -/
theorem mem_unmoved {l : List Nat} {p : Nat} {P : Prop} (hp : p ∉ l) (hP : ¬ P) (q : Nat) :
    q ∈ l ↔ q = p ∧ P ∨ q ≠ p ∧ q ∈ l := by
  constructor
  · intro hq
    refine .inr ⟨?_, hq⟩
    rintro rfl
    exact hp hq
  · rintro (⟨-, h⟩ | ⟨-, h⟩)
    · exact absurd h hP
    · exact h

/-- A list that the node leaves or joins, as its first. -/
theorem mem_cons_moved {l : List Nat} {p : Nat} {P : Prop} (hp : p ∉ l) (hP : P) (q : Nat) :
    q ∈ p :: l ↔ q = p ∧ P ∨ q ≠ p ∧ q ∈ l := by
  rw [List.mem_cons]
  constructor
  · rintro (rfl | hq)
    · exact .inl ⟨rfl, hP⟩
    · refine .inr ⟨?_, hq⟩
      rintro rfl
      exact hp hq
  · rintro (⟨rfl, -⟩ | ⟨-, hq⟩)
    · exact .inl rfl
    · exact .inr hq

omit [DecidableEq T] in
/-- Where a node is, by the list that it is in. -/
theorem Moved.mem_iff {L' : Layout T} {p : Nat} {dest place : Place T} (M : Moved L L' t p dest)
    {l l' : List Nat} (hold : ∀ q, q ∈ l ↔ L.place q = place)
    (hnew : ∀ q, q ∈ l' ↔ q = p ∧ dest = place ∨ q ≠ p ∧ q ∈ l) (q : Nat) :
    q ∈ l' ↔ L'.place q = place := by
  rw [hnew, M.place]
  by_cases hq : q = p
  · subst hq
    rw [update_self]
    simp
  · rw [update_of_ne hq, ← hold]
    simp [hq]

/-- **The layout after one node has moved** fits, if the chains and the words at their ends do. -/
theorem Moved.fits {L' : Layout T} {p : Nat} {dest : Place T} (M : Moved L L' t p dest)
    (F : Fits L s) (H : Later (L.Writes t) s.mem m')
    (hchain : Chain m'.next (some m'.headStamp.node) L'.chain)
    (htail : ∃ i, m'.tailStamp.count = m'.headStamp.count + i ∧
      L'.chain[i]? = some m'.tailStamp.node)
    (hfree : Chain m'.below m'.topStamp.node L'.free) (hused : ∀ q ∈ L'.free, m'.next q ≠ none)
    (hnext : ∀ q, q ≠ p → m'.next q = s.mem.next q)
    (hholds : (holdsOf pc').Agrees m'.next (L'.mine t))
    (hcreated : ∀ q, m'.created ≤ q ↔ q ≠ p ∧ s.mem.created ≤ q)
    (hcount : m'.created = L'.free.length + L'.taken) (hknows : ∀ pc, pc' = some pc → pc.Knows m')
    (haim : aimOf pc' = none) (hbuild : (holdsOf pc').Builds → ∀ u, L.rank u < L'.rank t) :
    Fits L' (s.after t ⟨m', pc', e⟩) where
  chain := hchain
  tail := htail
  free := hfree
  used := hused
  holds u := by
    by_cases hu : u = t
    · subst hu
      rw [Sys.threads_after_self]
      exact hholds
    · rw [Sys.threads_after hu, (M.others u hu).1]
      have hsame : ∀ q ∈ L.mine u, m'.next q = s.mem.next q := by
        intro q hq
        refine hnext q ?_
        rintro rfl
        exact (M.mover u hu).1 ((F.mem_mine u q).mp hq)
      exact (F.holds u).keep (fun q n hq h => (hsame q hq).trans h) fun _ _ => hsame
  mem_chain := M.mem_iff F.mem_chain M.chain
  mem_free := M.mem_iff F.mem_free M.free
  mem_mine u := by
    by_cases hu : u = t
    · subst hu
      exact M.mem_iff (F.mem_mine u) M.mine
    · rw [(M.others u hu).1]
      refine M.mem_iff (F.mem_mine u) fun q => mem_unmoved (fun hp => ?_) (M.mover u hu).2 q
      exact (M.mover u hu).1 ((F.mem_mine u p).mp hp)
  nowhere q := by
    show L'.place q = .nowhere ↔ m'.created ≤ q
    rw [hcreated, M.place]
    by_cases hq : q = p
    · subst hq
      rw [update_self]
      simp [M.somewhere]
    · rw [update_of_ne hq]
      simp [hq, F.nowhere]
  count := hcount
  knows := F.knows_after H hknows
  rank u w a ha hplace hb := by
    have hu : u ≠ t := by
      rintro rfl
      rw [Sys.threads_after_self] at ha
      rw [show aimOf pc' = none from haim] at ha
      cases ha
    rw [Sys.threads_after hu] at ha
    rw [(M.others u hu).2]
    by_cases hw : w = t
    · subst hw
      rw [Sys.threads_after_self] at hb
      exact hbuild hb u
    · rw [(M.others w hw).2]
      rw [Sys.threads_after hw] at hb
      refine F.rank u w a ha ?_ hb
      have hap : a ≠ p := by
        rintro rfl
        rw [M.place, update_self] at hplace
        exact (M.mover w hw).2 hplace
      rwa [M.place, update_of_ne hap] at hplace

omit [DecidableEq T] in
/-- A node that is somewhere has been created. -/
theorem Fits.created_iff (F : Fits L s) {p : Nat} (hp : L.place p ≠ .nowhere) (q : Nat) :
    s.mem.created ≤ q ↔ q ≠ p ∧ s.mem.created ≤ q := by
  constructor
  · intro hq
    refine ⟨?_, hq⟩
    rintro rfl
    exact hp ((F.nowhere q).mpr hq)
  · exact fun hq => hq.2

/-- What hangs behind the first node of each thread, when one gets another first node. -/
theorem hung_update {mine : T → List Nat} {l : List Nat} (h : l.tail = (mine t).tail)
    (data : Nat → Item α) :
    (fun u => (update mine t l u).tail.map data) = fun u => (mine u).tail.map data := by
  funext u
  by_cases hu : u = t
  · subst hu
    rw [update_self, h]
  · rw [update_of_ne hu]

variable (pc' e) in
/-- **`Alloc`**: a node comes into the hands of thread `t`, from the free list or from nowhere. -/
theorem Fits.take [Fintype T] (F : Fits L s) {p : Nat} {free' : List Nat}
    (hnone : holdsOf (s.threads t) = .nothing)
    (hp : L.place p = .pool ∨ L.place p = .nowhere)
    (H : Later (L.Writes t) s.mem m') (hhead : m'.headStamp = s.mem.headStamp)
    (htail : m'.tailStamp = s.mem.tailStamp) (hnext : ∀ q, q ≠ p → m'.next q = s.mem.next q)
    (hdata : m'.data = s.mem.data) (hfree : Chain m'.below m'.topStamp.node free')
    (hmem : ∀ q, q ∈ free' ↔ q ≠ p ∧ q ∈ L.free)
    (hnowhere : ∀ q, m'.created ≤ q ↔ q ≠ p ∧ s.mem.created ≤ q)
    (hcount : m'.created = free'.length + (L.taken + 1))
    (hholds : (holdsOf pc').Agrees m'.next [p]) (hknows : ∀ pc, pc' = some pc → pc.Knows m')
    (haim : aimOf pc' = none) :
    ∃ L', Fits L' (s.after t ⟨m', pc', e⟩) ∧
      L'.view m' = { L.view s.mem with taken := L.taken + 1 } := by
  have hmine : L.mine t = [] := by
    have hold := F.holds t
    rw [hnone] at hold
    exact hold
  have hchain : p ∉ L.chain := by
    intro hq
    rw [(F.mem_chain p).mp hq] at hp
    rcases hp with hp | hp <;> cases hp
  have M : Moved L { L with
      free := free'
      mine := update L.mine t [p]
      place := update L.place p (.thread t)
      rank := update L.rank t (Finset.univ.sup L.rank + 1)
      taken := L.taken + 1 } t p (.thread t) :=
    { place := rfl
      chain := mem_unmoved hchain nofun
      free := fun q => by
        rw [hmem]
        simp
      mine := fun q => by
        show q ∈ update L.mine t [p] t ↔ _
        rw [update_self, hmine]
        exact mem_cons_moved List.not_mem_nil rfl q
      others := fun u hu => ⟨update_of_ne hu _ _, update_of_ne hu _ _⟩
      mover := fun u hu => ⟨by rcases hp with hp | hp <;> rw [hp] <;> nofun, by simp [Ne.symm hu]⟩
      somewhere := nofun }
  refine ⟨_, M.fits F H ?_ ?_ hfree ?_ hnext ?_ hnowhere hcount hknows haim ?_, ?_⟩
  · rw [hhead]
    exact F.chain.congr fun q hq => hnext q fun heq => hchain (heq ▸ hq)
  · rw [hhead, htail]
    exact F.tail
  · intro q hq
    obtain ⟨hqp, hq⟩ := (hmem q).mp hq
    rw [hnext q hqp]
    exact F.used q hq
  · show (holdsOf pc').Agrees m'.next (update L.mine t [p] t)
    rw [update_self]
    exact hholds
  · -- whoever aims at a node just taken has been there before
    intro _ u
    show L.rank u < update L.rank t (Finset.univ.sup L.rank + 1) t
    rw [update_self]
    exact Nat.lt_succ_of_le (Finset.le_sup (f := L.rank) (Finset.mem_univ u))
  · unfold Layout.view
    rw [hdata]
    congr 1
    exact hung_update (by rw [hmine]; rfl) _

omit [DecidableEq T] in
/-- The memory after the CAS on `tail->next`. -/
theorem Fits.later_link (F : Fits L s) {a p : Nat} (hnone : s.mem.next a = none) :
    Later (L.Writes t) s.mem { s.mem with next := update s.mem.next a (some p) } where
  head := .refl _
  tail := .refl _
  top := .refl _
  created := Nat.le_refl _
  next q n _ h := by
    have hne : q ≠ a := by
      rintro rfl
      rw [hnone] at h; cases h
    show update s.mem.next a (some p) q = some n
    rw [update_of_ne hne]
    exact h
  data _ _ := rfl
  below _ _ := rfl

/-- **The CAS on `tail->next`** hands everything that thread `t` holds over to `dest`. -/
theorem Fits.handOver (F : Fits L s) {x : Item α} {p : Nat} {tail : Stamped Nat}
    (hpc : s.threads t = some (.casNext x p tail)) (hnone : s.mem.next tail.node = none)
    (dest : Place T) (chain' : List Nat) (mine' : T → List Nat)
    (hchain : Chain (update s.mem.next tail.node (some p)) (some s.mem.headStamp.node) chain')
    (hpre : ∀ i q : Nat, L.chain[i]? = some q → chain'[i]? = some q)
    (hholds : ∀ u, u ≠ t → (holdsOf (s.threads u)).Agrees (update s.mem.next tail.node (some p))
      (mine' u))
    (hempty : mine' t = [])
    (hqueue : ∀ q, q ∈ chain' ↔ q ∈ L.chain ∨ q ∈ L.mine t ∧ dest = .queue)
    (hmine : ∀ u q, q ∈ mine' u ↔ u ≠ t ∧ q ∈ L.mine u ∨ q ∈ L.mine t ∧ dest = .thread u)
    (hdest : dest ≠ .pool ∧ dest ≠ .nowhere)
    (hrank : ∀ w, dest = .thread w → L.rank t < L.rank w) :
    Fits { L with
        chain := chain'
        mine := mine'
        place := fun q => if q ∈ L.mine t then dest else L.place q }
      (s.after t ⟨{ s.mem with next := update s.mem.next tail.node (some p) },
        some (.countNode x p tail), some (.linked x)⟩) where
  chain := hchain
  tail := by
    obtain ⟨i, hcount, hi⟩ := F.tail
    exact ⟨i, hcount, hpre i _ hi⟩
  free := F.free
  used q hq := by
    show update s.mem.next tail.node (some p) q ≠ none
    by_cases hqa : q = tail.node
    · subst hqa
      exact absurd hnone (F.used _ hq)
    · rw [update_of_ne hqa]
      exact F.used q hq
  holds u := by
    by_cases hu : u = t
    · subst hu
      rw [Sys.threads_after_self]
      exact hempty
    · rw [Sys.threads_after hu]
      exact hholds u hu
  mem_chain q := by
    show q ∈ chain' ↔ (if q ∈ L.mine t then dest else L.place q) = .queue
    rw [hqueue]
    by_cases hq : q ∈ L.mine t
    · rw [if_pos hq, F.mem_chain, (F.mem_mine t q).mp hq]
      simp [hq]
    · rw [if_neg hq, F.mem_chain]
      simp [hq]
  mem_free q := by
    show q ∈ L.free ↔ (if q ∈ L.mine t then dest else L.place q) = .pool
    by_cases hq : q ∈ L.mine t
    · rw [if_pos hq, F.mem_free, (F.mem_mine t q).mp hq]
      simp [hdest.1]
    · rw [if_neg hq]
      exact F.mem_free q
  mem_mine u q := by
    show q ∈ mine' u ↔ (if q ∈ L.mine t then dest else L.place q) = .thread u
    rw [hmine]
    by_cases hq : q ∈ L.mine t
    · rw [if_pos hq, F.mem_mine u, (F.mem_mine t q).mp hq]
      constructor
      · rintro (⟨hne, heq⟩ | ⟨-, hd⟩)
        · cases heq
          exact absurd rfl hne
        · exact hd
      · exact fun hd => .inr ⟨hq, hd⟩
    · rw [if_neg hq, ← F.mem_mine]
      constructor
      · rintro (⟨-, hu⟩ | ⟨hq', -⟩)
        · exact hu
        · exact absurd hq' hq
      · intro hu
        refine .inl ⟨?_, hu⟩
        rintro rfl
        exact hq hu
  nowhere q := by
    show (if q ∈ L.mine t then dest else L.place q) = .nowhere ↔ s.mem.created ≤ q
    rw [← F.nowhere]
    by_cases hq : q ∈ L.mine t
    · rw [if_pos hq, (F.mem_mine t q).mp hq]
      simp [hdest.2]
    · rw [if_neg hq]
  count := F.count
  knows := F.knows_after (F.later_link hnone) (by
    rintro _ ⟨⟩
    have K : s.mem.data p = x ∧ tail.Was s.mem.tailStamp ∧ tail.node < s.mem.created :=
      F.knows t _ hpc
    exact ⟨K.2.1, fun _ => update_self ..⟩)
  rank u w a ha hplace hb := by
    have hu : u ≠ t := by
      rintro rfl
      rw [Sys.threads_after_self] at ha
      cases ha
    have hw : w ≠ t := by
      rintro rfl
      rw [Sys.threads_after_self] at hb
      exact hb
    rw [Sys.threads_after hu] at ha
    rw [Sys.threads_after hw] at hb
    have hplace : (if a ∈ L.mine t then dest else L.place a) = .thread w := hplace
    by_cases hat : a ∈ L.mine t
    · -- `u` aims at a node of `t`, and `t` at one of `w`
      rw [if_pos hat] at hplace
      refine Nat.lt_trans (F.rank u t a ha ((F.mem_mine t a).mp hat) ?_) (hrank w hplace)
      rw [hpc]
      trivial
    · rw [if_neg hat] at hplace
      exact F.rank u w a ha hplace hb

omit [DecidableEq T] in
/-- Where the node is that a producer links its own behind: in the queue, or with another one who has
    taken it from the pool since. -/
theorem Fits.aim_cases (F : Fits L s) {x : Item α} {p : Nat} {tail : Stamped Nat}
    (hpc : s.threads t = some (.casNext x p tail)) (hnone : s.mem.next tail.node = none) :
    L.place tail.node = .queue ∨ ∃ u q, u ≠ t ∧ tail.node ∈ L.mine u ∧
      holdsOf (s.threads u) = .built q ∧ L.rank t < L.rank u := by
  have K : s.mem.data p = x ∧ tail.Was s.mem.tailStamp ∧ tail.node < s.mem.created :=
    F.knows t _ hpc
  cases hplace : L.place tail.node with
  | queue => exact .inl rfl
  | nowhere =>
    have := (F.nowhere _).mp hplace
    omega
  | pool => exact absurd hnone (F.used _ ((F.mem_free _).mpr hplace))
  | thread u =>
    right
    have hmem := (F.mem_mine u _).mpr hplace
    have hown := F.holds u
    cases hh : holdsOf (s.threads u) with
    | nothing =>
      rw [hh] at hown
      rw [show L.mine u = [] from hown] at hmem
      cases hmem
    | raw q | spent q =>
      rw [hh] at hown
      rw [hown.1] at hmem
      obtain heq := List.mem_singleton.mp hmem
      rw [← heq] at hown
      exact absurd hnone hown.2
    | built q =>
      have hlt : L.rank t < L.rank u := by
        refine F.rank t u tail.node ?_ hplace ?_
        · rw [hpc]
          rfl
        · rw [hh]
          trivial
      refine ⟨u, q, ?_, hmem, hh, hlt⟩
      rintro rfl
      exact Nat.lt_irrefl _ hlt

omit [DecidableEq T] in
/-- What a producer holds: its own node, with the value, and what is hung behind it. -/
theorem Fits.own (F : Fits L s) {x : Item α} {p : Nat} {tail : Stamped Nat}
    (hpc : s.threads t = some (.casNext x p tail)) :
    Chain s.mem.next (some p) (L.mine t) ∧
      (L.mine t).map s.mem.data = x :: (L.mine t).tail.map s.mem.data := by
  have K : s.mem.data p = x ∧ tail.Was s.mem.tailStamp ∧ tail.node < s.mem.created :=
    F.knows t _ hpc
  have hown : Chain s.mem.next (some p) (L.mine t) := by
    have h := F.holds t
    rw [hpc] at h
    exact h
  refine ⟨hown, ?_⟩
  obtain ⟨rest, hrest, -⟩ := hown.head
  rw [hrest]
  show s.mem.data p :: _ = _
  rw [K.1]
  rfl

omit [DecidableEq T] in
/-- Filling in the link of a node that is not theirs leaves the others what they hold. -/
theorem Fits.holds_link (F : Fits L s) {u : T} {a p : Nat} (hnot : a ∉ L.mine u) :
    (holdsOf (s.threads u)).Agrees (update s.mem.next a (some p)) (L.mine u) := by
  have hsame : ∀ q ∈ L.mine u, update s.mem.next a (some p) q = s.mem.next q := by
    intro q hq
    refine update_of_ne ?_ _ _
    rintro rfl
    exact hnot hq
  exact (F.holds u).keep (fun q n hq h => (hsame q hq).trans h) fun _ _ => hsame

/-- **The CAS on `tail->next`** behind the last node of the queue. -/
theorem Fits.append (F : Fits L s) {x : Item α} {p : Nat} {tail : Stamped Nat}
    (hpc : s.threads t = some (.casNext x p tail)) (hnone : s.mem.next tail.node = none)
    (hq : L.place tail.node = .queue) :
    ∃ L', Fits L' (s.after t ⟨{ s.mem with next := update s.mem.next tail.node (some p) },
        some (.countNode x p tail), some (.linked x)⟩) ∧
      L'.view { s.mem with next := update s.mem.next tail.node (some p) }
        = { L.view s.mem with
            queue := (L.view s.mem).queue ++ x :: (L.view s.mem).hung t
            hung := update (L.view s.mem).hung t [] } := by
  obtain ⟨hown, hvals⟩ := F.own hpc
  obtain ⟨front, hfront, -⟩ := F.chain.head
  refine ⟨_, F.handOver hpc hnone .queue (L.chain ++ L.mine t) (update L.mine t []) ?_ ?_ ?_
    (update_self ..) ?_ ?_ ⟨nofun, nofun⟩ nofun, ?_⟩
  · refine F.chain.hang ((F.mem_chain _).mpr hq) hnone hown fun c hc hc' => ?_
    have h := (F.mem_mine t c).mp hc'
    rw [(F.mem_chain c).mp hc] at h
    cases h
  · intro i r hi
    rw [List.getElem?_append_left (List.getElem?_eq_some_iff.mp hi).1]
    exact hi
  · intro w hw
    rw [update_of_ne hw]
    refine F.holds_link fun hnot => ?_
    rw [(F.mem_mine w _).mp hnot] at hq
    cases hq
  · intro r
    rw [List.mem_append]
    simp
  · intro w r
    by_cases hw : w = t
    · subst hw
      rw [update_self]
      simp
    · rw [update_of_ne hw]
      simp [hw]
  · unfold Layout.view
    congr 1
    · show (L.chain ++ L.mine t).tail.map s.mem.data = _
      rw [hfront, List.cons_append, List.tail_cons, List.map_append, hvals]
      rfl
    · funext w
      show (update L.mine t [] w).tail.map s.mem.data = _
      by_cases hw : w = t
      · subst hw
        rw [update_self, update_self]
        rfl
      · rw [update_of_ne hw, update_of_ne hw]

/-- **The CAS on `tail->next`** behind the last of the nodes that thread `u` holds. -/
theorem Fits.hang (F : Fits L s) {x : Item α} {p q : Nat} {tail : Stamped Nat} {u : T}
    (hpc : s.threads t = some (.casNext x p tail)) (hnone : s.mem.next tail.node = none)
    (hut : u ≠ t) (hmem : tail.node ∈ L.mine u) (hbuilt : holdsOf (s.threads u) = .built q)
    (hrank : L.rank t < L.rank u) :
    ∃ L', Fits L' (s.after t ⟨{ s.mem with next := update s.mem.next tail.node (some p) },
        some (.countNode x p tail), some (.linked x)⟩) ∧
      L'.view { s.mem with next := update s.mem.next tail.node (some p) }
        = { L.view s.mem with
            hung := update (update (L.view s.mem).hung t []) u
              ((L.view s.mem).hung u ++ x :: (L.view s.mem).hung t) } := by
  obtain ⟨hown, hvals⟩ := F.own hpc
  have hplace := (F.mem_mine u _).mp hmem
  have hchain : Chain s.mem.next (some q) (L.mine u) := by
    have h := F.holds u
    rw [hbuilt] at h
    exact h
  obtain ⟨more, hmore, -⟩ := hchain.head
  refine ⟨_, F.handOver hpc hnone (.thread u) L.chain
    (update (update L.mine t []) u (L.mine u ++ L.mine t)) ?_ (fun _ _ h => h) ?_ ?_ ?_ ?_
    ⟨nofun, nofun⟩ ?_, ?_⟩
  · refine F.chain.update fun hc => ?_
    rw [(F.mem_chain _).mp hc] at hplace
    cases hplace
  · intro w hw
    by_cases hwu : w = u
    · subst hwu
      rw [update_self, hbuilt]
      refine hchain.hang hmem hnone hown fun c hc hc' => ?_
      have h := (F.mem_mine t c).mp hc'
      rw [(F.mem_mine w c).mp hc] at h
      cases h
      exact hut rfl
    · rw [update_of_ne hwu, update_of_ne hw]
      refine F.holds_link fun hnot => ?_
      rw [(F.mem_mine w _).mp hnot] at hplace
      cases hplace
      exact hwu rfl
  · rw [update_of_ne (Ne.symm hut), update_self]
  · intro r
    simp
  · intro w r
    by_cases hwu : w = u
    · subst hwu
      rw [update_self, List.mem_append]
      simp [hut]
    · rw [update_of_ne hwu]
      by_cases hw : w = t
      · subst hw
        rw [update_self]
        simp [Ne.symm hwu]
      · rw [update_of_ne hw]
        simp [hw, Ne.symm hwu]
  · intro w hw
    cases hw
    exact hrank
  · unfold Layout.view
    congr 1
    funext w
    show (update (update L.mine t []) u (L.mine u ++ L.mine t) w).tail.map s.mem.data = _
    by_cases hwu : w = u
    · subst hwu
      rw [update_self, update_self, hmore, List.cons_append, List.tail_cons, List.map_append, hvals]
      show _ = (L.mine w).tail.map s.mem.data ++ x :: (L.mine t).tail.map s.mem.data
      rw [hmore]
      rfl
    · rw [update_of_ne hwu, update_of_ne hwu]
      by_cases hw : w = t
      · subst hw
        rw [update_self, update_self]
        rfl
      · rw [update_of_ne hw, update_of_ne hw]

/-- **The CAS on `tail->next`**, in both cases. -/
theorem Fits.link (F : Fits L s) {x : Item α} {p : Nat} {tail : Stamped Nat}
    (hpc : s.threads t = some (.casNext x p tail)) (hnone : s.mem.next tail.node = none) :
    ∃ L', Fits L' (s.after t ⟨{ s.mem with next := update s.mem.next tail.node (some p) },
        some (.countNode x p tail), some (.linked x)⟩) ∧
      Effect s t (L.view s.mem) (some (.linked x))
        (L'.view { s.mem with next := update s.mem.next tail.node (some p) }) := by
  rcases F.aim_cases hpc hnone with hq | ⟨u, q, hut, hmem, hbuilt, hrank⟩
  · obtain ⟨L', F', hview⟩ := F.append hpc hnone hq
    exact ⟨L', F', hview ▸ .append⟩
  · obtain ⟨L', F', hview⟩ := F.hang hpc hnone hut hmem hbuilt hrank
    refine ⟨L', F', hview ▸ .hang hut fun hempty => ⟨x, p, tail, hpc, hnone, ?_⟩⟩
    -- with nothing hung behind it, the node of `u` is the one aimed at
    have hown := F.holds u
    rw [hbuilt] at hown
    obtain ⟨more, hmore, -⟩ := Chain.head hown
    have hsingle : more = [] := by
      have h : (L.mine u).tail.map s.mem.data = [] := hempty
      rw [hmore] at h
      exact List.map_eq_nil_iff.mp h
    rw [hmore, hsingle] at hmem
    rw [hbuilt, List.mem_singleton.mp hmem]

/-- **The CAS on `headStamp`**: the old head comes into the hands of `t`. -/
theorem Fits.unlink (F : Fits L s) {head : Stamped Nat} {n : Nat} {x : Item α}
    (hpc : s.threads t = some (.casHead head n x)) (hhead : s.mem.headStamp = head) :
    ∃ L', Fits L' (s.after t ⟨{ s.mem with headStamp := head.move n },
        some (.reloadTop x head.node), some (.unlinked x)⟩) ∧
      Effect s t (L.view s.mem) (some (.unlinked x))
        (L'.view { s.mem with headStamp := head.move n }) := by
  subst hhead
  have K := (F.knows t _ hpc).2 rfl
  obtain ⟨hlt, hn, hx⟩ := K
  have hmine : L.mine t = [] := by
    have h := F.holds t
    rw [hpc] at h
    exact h
  -- the chain: the old head, the new one, and the rest
  obtain ⟨l, hl, hchain⟩ := F.chain.head
  rw [hn] at hchain
  obtain ⟨rest, hrest, -⟩ := hchain.head
  have hnot : s.mem.headStamp.node ∉ l := by
    have h := F.chain.nodup
    rw [hl] at h
    exact (List.nodup_cons.mp h).1
  have H : Later (L.Writes t) s.mem { s.mem with headStamp := s.mem.headStamp.move n } :=
    ⟨Stamped.was_move _ _, .refl _, .refl _, Nat.le_refl _, fun _ _ _ h => h, fun _ _ => rfl,
      fun _ _ => rfl⟩
  have M : Moved L { L with
      chain := l
      mine := update L.mine t [s.mem.headStamp.node]
      place := update L.place s.mem.headStamp.node (.thread t) } t s.mem.headStamp.node
      (.thread t) :=
    { place := rfl
      chain := fun q => by
        rw [hl, List.mem_cons]
        constructor
        · intro hq
          refine .inr ⟨?_, .inr hq⟩
          rintro rfl
          exact hnot hq
        · rintro (⟨-, h⟩ | ⟨hne, heq | hq⟩)
          · cases h
          · exact absurd heq hne
          · exact hq
      free := mem_unmoved (fun hq => by
        have h := (F.mem_free _).mp hq
        rw [F.head_mem] at h
        cases h) nofun
      mine := fun q => by
        show q ∈ update L.mine t [s.mem.headStamp.node] t ↔ _
        rw [update_self, hmine]
        exact mem_cons_moved List.not_mem_nil rfl q
      others := fun u hu => ⟨update_of_ne hu _ _, rfl⟩
      mover := fun u hu => ⟨by rw [F.head_mem]; nofun, by simp [Ne.symm hu]⟩
      somewhere := nofun }
  refine ⟨_, M.fits F H hchain ?_ F.free F.used (fun _ _ => rfl) ?_
    (F.created_iff (by rw [F.head_mem]; nofun)) F.count (by rintro _ ⟨⟩; trivial) rfl nofun, ?_⟩
  · obtain ⟨i, hcount, hi⟩ := F.tail
    cases i with
    | zero => omega
    | succ i =>
      refine ⟨i, ?_, ?_⟩
      · show s.mem.tailStamp.count = s.mem.headStamp.count + 1 + i
        omega
      · rw [hl] at hi
        exact hi
  · refine ⟨update_self .., ?_⟩
    show s.mem.next s.mem.headStamp.node ≠ none
    rw [hn]
    nofun
  · have hview : ({ L with
        chain := l
        mine := update L.mine t [s.mem.headStamp.node]
        place := update L.place s.mem.headStamp.node (.thread t) } : Layout T).view
          { s.mem with headStamp := s.mem.headStamp.move n }
        = { L.view s.mem with queue := rest.map s.mem.data } := by
      unfold Layout.view
      congr 1
      · show l.tail.map s.mem.data = _
        rw [hrest]
        rfl
      · exact hung_update (by rw [hmine]; rfl) _
    rw [hview]
    refine .remove ?_
    show L.chain.tail.map s.mem.data = _
    rw [hl, hrest]
    show s.mem.data n :: _ = _
    rw [hx]

/-- **`Free`**: what `t` holds goes onto the free list. -/
theorem Fits.give (F : Fits L s) {h : Nat} {x : Item α} {top : Stamped (Option Nat)}
    (hpc : s.threads t = some (.pushTop x h top)) (htop : s.mem.topStamp = top) :
    ∃ L', Fits L' (s.after t ⟨{ s.mem with topStamp := top.move (some h) },
        some (.discountUse x), some .given⟩) ∧
      Effect s t (L.view s.mem) (some .given)
        (L'.view { s.mem with topStamp := top.move (some h) }) := by
  subst htop
  have K : s.mem.topStamp.Was s.mem.topStamp ∧ s.mem.below h = s.mem.topStamp.node :=
    F.knows t _ hpc
  have hspent : L.mine t = [h] ∧ s.mem.next h ≠ none := by
    have hold := F.holds t
    rw [hpc] at hold
    exact hold
  have hplace : L.place h = .thread t := (F.mem_mine t h).mp (hspent.1 ▸ List.mem_cons_self)
  have hnot : h ∉ L.free := by
    intro hmem
    rw [(F.mem_free h).mp hmem] at hplace
    cases hplace
  have H : Later (L.Writes t) s.mem { s.mem with topStamp := s.mem.topStamp.move (some h) } :=
    ⟨.refl _, .refl _, Stamped.was_move _ _, Nat.le_refl _, fun _ _ _ hn => hn, fun _ _ => rfl,
      fun _ _ => rfl⟩
  -- there is a node that is not in the pool
  have hcount : L.free.length + 1 ≤ s.mem.created := by
    have hnodup : (h :: L.free).Nodup := List.nodup_cons.mpr ⟨hnot, F.free.nodup⟩
    have hsub : h :: L.free ⊆ List.range s.mem.created := by
      intro q hq
      rw [List.mem_range]
      by_contra hge
      have hq' := (F.nowhere q).mpr (Nat.not_lt.mp hge)
      rcases List.mem_cons.mp hq with rfl | hq
      · rw [hplace] at hq'; cases hq'
      · rw [(F.mem_free q).mp hq] at hq'; cases hq'
    have hle := (hnodup.subperm hsub).length_le
    rw [List.length_range] at hle
    exact hle
  obtain ⟨k, hk⟩ : ∃ k, L.taken = k + 1 := by
    have := F.count
    exact ⟨L.taken - 1, by omega⟩
  have M : Moved L { L with
      free := h :: L.free
      mine := update L.mine t []
      place := update L.place h .pool
      taken := k } t h .pool :=
    { place := rfl
      chain := mem_unmoved (fun hq => by
        rw [(F.mem_chain h).mp hq] at hplace
        cases hplace) nofun
      free := mem_cons_moved hnot rfl
      mine := fun q => by
        show q ∈ update L.mine t [] t ↔ _
        rw [update_self, hspent.1]
        simp
      others := fun u hu => ⟨update_of_ne hu _ _, rfl⟩
      mover := fun u hu => ⟨by rw [hplace]; simp [Ne.symm hu], nofun⟩
      somewhere := nofun }
  refine ⟨_, M.fits F H F.chain F.tail ?_ ?_ (fun _ _ => rfl) (update_self ..)
    (F.created_iff (by rw [hplace]; nofun)) ?_ (by rintro _ ⟨⟩; trivial) rfl nofun, ?_⟩
  · refine ⟨rfl, ?_⟩
    show Chain s.mem.below (s.mem.below h) L.free
    rw [K.2]
    exact F.free
  · intro q hq
    rcases List.mem_cons.mp hq with rfl | hq
    · exact hspent.2
    · exact F.used q hq
  · show s.mem.created = (h :: L.free).length + k
    have := F.count
    rw [List.length_cons]
    omega
  · have hview : ({ L with
        free := h :: L.free
        mine := update L.mine t []
        place := update L.place h .pool
        taken := k } : Layout T).view { s.mem with topStamp := s.mem.topStamp.move (some h) }
        = { L.view s.mem with taken := k } := by
      unfold Layout.view
      congr 1
      exact hung_update (by rw [hspent.1]; rfl) _
    rw [hview]
    exact .give hk

/-! ## The step lemma -/

omit [DecidableEq T] in
/-- No thread holds a node twice. -/
theorem Fits.mine_nodup (F : Fits L s) (t : T) : (L.mine t).Nodup := by
  have hown := F.holds t
  cases h : holdsOf (s.threads t) with
  | nothing =>
    rw [h] at hown
    rw [show L.mine t = [] from hown]
    exact List.nodup_nil
  | raw p | spent p =>
    rw [h] at hown
    rw [hown.1]
    exact List.nodup_singleton p
  | built p =>
    rw [h] at hown
    exact Chain.nodup hown

/-- There is nothing to show for what is not there. -/
theorem of_none {A : Type} {P : A → Prop} (a : A) (h : none = some a) : P a :=
  absurd h (Option.some_ne_none a).symm

/-- A step that leaves the view as it is. -/
theorem Fits.step_quiet {r : Outcome α} (h : Fits L (s.after t r) ∧ L.view r.mem = L.view s.mem)
    (hquiet : ∀ ev, r.event = some ev → ev.IsQuiet) :
    ∃ L', Fits L' (s.after t r) ∧ Effect s t (L.view s.mem) r.event (L'.view r.mem) := by
  refine ⟨L, h.1, ?_⟩
  rw [h.2]
  exact .quiet hquiet

/-- A step that only looks, or only counts, and goes on at `pc`. -/
theorem Fits.step_idle (F : Fits L s) {pc : Pc α} (S : s.mem.Same m')
    (hholds : pc.holds = holdsOf (s.threads t)) (hknows : pc.Knows s.mem)
    (haim : ∀ a, pc.aim = some a → L.place a = .queue ∨ aimOf (s.threads t) = some a) :
    ∃ L', Fits L' (s.after t ⟨m', some pc, none⟩) ∧ Effect s t (L.view s.mem) none (L'.view m') := by
  refine Fits.step_quiet (F.idle S hholds ?_ haim) of_none
  intro pc' h
  cases h
  exact hknows

/-- The CAS of `Alloc`. -/
theorem Fits.pop [Fintype T] (F : Fits L s) {x : Item α} {p : Nat} {below : Option Nat}
    {top : Stamped (Option Nat)} (hpc : s.threads t = some (.casTop x top p below))
    (htop : s.mem.topStamp = top) :
    ∃ L', Fits L' (s.after t ⟨{ s.mem with topStamp := top.move below }, some (.construct x p),
        some .taken⟩) ∧
      Effect s t (L.view s.mem) (some .taken)
        (L'.view { s.mem with topStamp := top.move below }) := by
  subst htop
  have K : s.mem.topStamp.Was s.mem.topStamp ∧ s.mem.topStamp.node = some p ∧
      (s.mem.topStamp.count = s.mem.topStamp.count → s.mem.below p = below) := F.knows t _ hpc
  have hbelow : s.mem.below p = below := K.2.2 rfl
  have hchain := F.free
  rw [K.2.1] at hchain
  obtain ⟨free', hfree, hchain'⟩ := hchain.head
  have hplace := F.top_mem K.2.1
  have hnot : p ∉ free' := by
    have h := F.free.nodup
    rw [hfree] at h
    exact (List.nodup_cons.mp h).1
  have hlt : p < s.mem.created := by
    by_contra hge
    rw [(F.nowhere p).mpr (Nat.not_lt.mp hge)] at hplace
    cases hplace
  have hmem : ∀ q, q ∈ free' ↔ q ≠ p ∧ q ∈ L.free := by
    intro q
    rw [hfree, List.mem_cons]
    constructor
    · intro hq
      exact ⟨fun heq => hnot (heq ▸ hq), .inr hq⟩
    · rintro ⟨hne, rfl | hq⟩
      · exact absurd rfl hne
      · exact hq
  have hnowhere : ∀ q, s.mem.created ≤ q ↔ q ≠ p ∧ s.mem.created ≤ q := by
    intro q
    constructor
    · intro hq
      exact ⟨by omega, hq⟩
    · exact fun hq => hq.2
  have hcount : s.mem.created = free'.length + (L.taken + 1) := by
    have h := F.count
    rw [hfree, List.length_cons] at h
    omega
  have H : Later (L.Writes t) s.mem { s.mem with topStamp := s.mem.topStamp.move below } :=
    ⟨.refl _, .refl _, Stamped.was_move _ _, Nat.le_refl _, fun _ _ _ h => h, fun _ _ => rfl,
      fun _ _ => rfl⟩
  have hnone : holdsOf (s.threads t) = .nothing := by rw [hpc]; rfl
  obtain ⟨L', F', hview⟩ := F.take (some (.construct x p)) (some .taken) hnone
    (.inl hplace) H rfl rfl (fun _ _ => rfl) rfl (hbelow ▸ hchain') hmem hnowhere hcount
    ⟨rfl, F.used p ((F.mem_free p).mpr hplace)⟩ (by rintro _ ⟨⟩; trivial) rfl
  exact ⟨L', F', hview ▸ .take⟩

/-- `new Node`. -/
theorem Fits.create [Fintype T] (F : Fits L s) {x : Item α}
    (hpc : s.threads t = some (.create x)) :
    ∃ L', Fits L' (s.after t ⟨{ s.mem with
          next := update s.mem.next s.mem.created none
          below := update s.mem.below s.mem.created none
          created := s.mem.created + 1 }, some (.storeData x s.mem.created), some .taken⟩) ∧
      Effect s t (L.view s.mem) (some .taken) (L'.view { s.mem with
          next := update s.mem.next s.mem.created none
          below := update s.mem.below s.mem.created none
          created := s.mem.created + 1 }) := by
  have hplace : L.place s.mem.created = .nowhere := (F.nowhere _).mpr (Nat.le_refl _)
  have hne : ∀ p, ¬ L.Writes t p → p ≠ s.mem.created := by
    rintro p hp rfl
    exact hp (.inr hplace)
  have H : Later (L.Writes t) s.mem { s.mem with
      next := update s.mem.next s.mem.created none
      below := update s.mem.below s.mem.created none
      created := s.mem.created + 1 } :=
    ⟨.refl _, .refl _, .refl _, Nat.le_succ _,
      fun p n hp h => (update_of_ne (hne p hp) _ _).trans h, fun _ _ => rfl,
      fun p hp => update_of_ne (hne p hp) _ _⟩
  have hfree : ∀ q ∈ L.free, q ≠ s.mem.created := by
    rintro q hq rfl
    rw [(F.mem_free _).mp hq] at hplace
    cases hplace
  have hchain : Chain (update s.mem.below s.mem.created none) s.mem.topStamp.node L.free :=
    F.free.update fun hq => hfree _ hq rfl
  have hnone : holdsOf (s.threads t) = .nothing := by rw [hpc]; rfl
  have hcount : s.mem.created + 1 = L.free.length + (L.taken + 1) := by
    have := F.count
    omega
  obtain ⟨L', F', hview⟩ := F.take (some (.storeData x s.mem.created)) (some .taken)
    hnone (.inr hplace) H rfl rfl (fun q hq => update_of_ne hq _ _) rfl hchain
    (fun q => ⟨fun hq => ⟨hfree q hq, hq⟩, fun hq => hq.2⟩)
    (fun q => by show s.mem.created + 1 ≤ q ↔ _; omega) hcount
    (Chain.single (update_self ..)) (by rintro _ ⟨⟩; trivial) rfl
  exact ⟨L', F', hview ▸ .take⟩

/-- A step that writes to nodes of `t`, but moves none, and neither head, tail nor top. -/
theorem Fits.write (F : Fits L s) {pc : Pc α} {next' below' : Nat → Option Nat}
    {data' : Nat → Item α} {h : Nat} (hplace : L.place h = .thread t)
    (hnext : ∀ p, p ≠ h → next' p = s.mem.next p) (hdata : ∀ p, p ≠ h → data' p = s.mem.data p)
    (hbelow : ∀ p, p ≠ h → below' p = s.mem.below p)
    (hholds : pc.holds.Agrees next' (L.mine t))
    (hknows : pc.Knows { s.mem with next := next', data := data', below := below' })
    (haim : pc.aim = none) (hbuild : pc.holds.Builds → (holdsOf (s.threads t)).Builds)
    (hfirst : (L.mine t).head? = some h) :
    ∃ L', Fits L'
        (s.after t ⟨{ s.mem with next := next', data := data', below := below' }, some pc, none⟩) ∧
      Effect s t (L.view s.mem) none
        (L'.view { s.mem with next := next', data := data', below := below' }) := by
  have hne : ∀ p, ¬ L.Writes t p → p ≠ h := by
    rintro p hp rfl
    exact hp (.inl hplace)
  refine Fits.step_quiet ⟨?_, ?_⟩ of_none
  · refine F.stay ⟨.refl _, .refl _, .refl _, Nat.le_refl _,
      fun p n hp hn => (hnext p (hne p hp)).trans hn, fun p hp => hdata p (hne p hp),
      fun p hp => hbelow p (hne p hp)⟩ rfl rfl rfl (fun p hp => hnext p (hne p hp)) F.tail hholds
      (by rintro _ ⟨⟩; exact hknows) ?_ hbuild
    intro a ha
    rw [show aimOf (some pc) = none from haim] at ha
    cases ha
  · -- the node written to is the first of those of `t`, so no value in the view is on it
    have hsame : ∀ l : List Nat, (∀ p ∈ l, p ≠ h) → l.map data' = l.map s.mem.data :=
      fun l hl => List.map_congr_left fun p hp => hdata p (hl p hp)
    unfold Layout.view
    congr 1
    · refine hsame _ fun p hp => ?_
      rintro rfl
      rw [(F.mem_chain p).mp (List.mem_of_mem_tail hp)] at hplace
      cases hplace
    · funext u
      refine hsame _ fun p hp => ?_
      rintro rfl
      have hmem := (F.mem_mine u p).mp (List.mem_of_mem_tail hp)
      rw [hplace] at hmem
      cases hmem
      cases hl : L.mine t with
      | nil => rw [hl] at hfirst; cases hfirst
      | cons q rest =>
        rw [hl] at hfirst hp
        obtain rfl : q = p := by simpa using hfirst
        have hnodup := F.mine_nodup t
        rw [hl] at hnodup
        exact (List.nodup_cons.mp hnodup).1 hp

/-- **The step lemma.**  While the stamps have not come round, an operation of thread `t` has one of
    the effects, and the layout after it fits again. -/
theorem Fits.step [Fintype T] (F : Fits L s) (hfresh : s.Fresh) {pc : Pc α}
    (hpc : s.threads t = some pc) :
    ∃ L', Fits L' (s.after t (pc.run s.mem)) ∧
      Effect s t (L.view s.mem) (pc.run s.mem).event (L'.view (pc.run s.mem).mem) := by
  have K := F.knows t pc hpc
  have hrecent := hfresh t pc hpc
  have hthread : holdsOf (s.threads t) = pc.holds := by rw [hpc]; rfl
  have haim : aimOf (s.threads t) = pc.aim := by rw [hpc]; rfl
  have hown := F.holds t
  rw [hthread] at hown
  cases pc with
  | loadTop x =>
    simp only [Pc.run]
    cases htop : s.mem.topStamp.node with
    | none => exact F.step_idle (.refl _) hthread.symm trivial of_none
    | some p => exact F.step_idle (.refl _) hthread.symm ⟨.refl _, htop⟩ of_none
  | loadBelow x top p =>
    exact F.step_idle (.refl _) hthread.symm ⟨K.1, K.2, fun _ => rfl⟩ of_none
  | casTop x top p below =>
    simp only [Pc.run]
    by_cases hsame : s.mem.topStamp.same top = true
    · rw [if_pos hsame]
      exact F.pop hpc (Stamped.eq_of_same K.1 hrecent hsame)
    · rw [if_neg hsame]
      exact F.step_idle (.refl _) hthread.symm trivial of_none
  | construct x p =>
    have hp : L.place p = .thread t := (F.mem_mine t p).mp (hown.1 ▸ List.mem_cons_self)
    refine F.write hp (fun q hq => update_of_ne hq _ _) (fun _ _ => rfl) (fun _ _ => rfl) ?_ trivial
      rfl (fun _ => hthread ▸ trivial) (by rw [hown.1]; rfl)
    rw [hown.1]
    exact Chain.single (update_self ..)
  | countUse x p =>
    exact F.step_idle ⟨rfl, rfl, rfl, rfl, rfl, rfl, rfl⟩ hthread.symm trivial of_none
  | growCapacity x =>
    exact F.step_idle ⟨rfl, rfl, rfl, rfl, rfl, rfl, rfl⟩ hthread.symm trivial of_none
  | growUse x =>
    exact F.step_idle ⟨rfl, rfl, rfl, rfl, rfl, rfl, rfl⟩ hthread.symm trivial of_none
  | create x => exact F.create hpc
  | storeData x p =>
    obtain ⟨rest, hrest, -⟩ := Chain.head hown
    have hp : L.place p = .thread t := (F.mem_mine t p).mp (Chain.mem_head hown)
    exact F.write hp (fun _ _ => rfl) (fun q hq => update_of_ne hq _ _) (fun _ _ => rfl) hown
      (update_self ..) rfl (fun _ => hthread ▸ trivial) (by rw [hrest]; rfl)
  | loadTail x p =>
    have hlt : s.mem.tailStamp.node < s.mem.created := by
      by_contra hge
      have h := (F.nowhere _).mpr (Nat.not_lt.mp hge)
      rw [F.tail_mem] at h
      cases h
    refine F.step_idle (.refl _) hthread.symm ⟨K, .refl _, hlt⟩ fun a ha => .inl ?_
    cases ha
    exact F.tail_mem
  | loadTailNext x p tail =>
    simp only [Pc.run]
    cases hn : s.mem.next tail.node with
    | none => exact F.step_idle (.refl _) hthread.symm K fun a ha => .inr (haim.trans ha)
    | some n => exact F.step_idle (.refl _) hthread.symm ⟨K.1, K.2.1, fun _ => hn⟩ of_none
  | casNext x p tail =>
    simp only [Pc.run]
    cases hn : s.mem.next tail.node with
    | none => exact F.link hpc hn
    | some n => exact F.step_idle (.refl _) hthread.symm K.1 of_none
  | countNode x p tail =>
    exact F.step_idle ⟨rfl, rfl, rfl, rfl, rfl, rfl, rfl⟩ hthread.symm K of_none
  | casTail x p tail =>
    refine Fits.step_quiet (F.push K.1 hrecent K.2 hthread.symm of_none rfl) ?_
    rintro _ ⟨⟩
    trivial
  | helpTail x p tail n =>
    refine Fits.step_quiet (F.push K.2.1 hrecent K.2.2 hthread.symm ?_ rfl) of_none
    rintro _ ⟨⟩
    exact (Mem.moveTail_data ..).trans K.1
  | discountNode =>
    simp only [Pc.run]
    split
    · exact F.step_idle ⟨rfl, rfl, rfl, rfl, rfl, rfl, rfl⟩ hthread.symm trivial of_none
    · exact F.step_idle ⟨rfl, rfl, rfl, rfl, rfl, rfl, rfl⟩ hthread.symm trivial of_none
  | recountNode =>
    exact Fits.step_quiet (F.idle ⟨rfl, rfl, rfl, rfl, rfl, rfl, rfl⟩ hthread.symm of_none of_none)
      of_none
  | loadHead => exact F.step_idle (.refl _) hthread.symm (.refl _) of_none
  | compareTail head =>
    -- the head is not ahead of the tail; and if they differ, the head is behind
    obtain ⟨i, hcount, hi⟩ := F.tail
    have hle : head.count ≤ s.mem.tailStamp.count := by
      have := K.1
      omega
    simp only [Pc.run]
    by_cases hsame : head.same s.mem.tailStamp = true
    · rw [if_pos hsame]
      exact F.step_idle (.refl _) hthread.symm ⟨K, .refl _, hle⟩ of_none
    · rw [if_neg hsame]
      refine F.step_idle (.refl _) hthread.symm ⟨K, fun hcur => ?_⟩ of_none
      refine Nat.lt_of_le_of_ne hle fun heq => hsame ?_
      have hzero : i = 0 := by omega
      subst hzero
      have hnode : s.mem.tailStamp.node = s.mem.headStamp.node := by
        obtain ⟨l, hl, -⟩ := F.chain.head
        rw [hl] at hi
        simpa using hi.symm
      unfold Stamped.same
      rw [K.2 hcur, hnode, hcount]
      simp
  | loadLastNext head tail =>
    simp only [Pc.run]
    cases hn : s.mem.next tail.node with
    | none => exact F.step_idle (.refl _) hthread.symm trivial of_none
    | some n => exact F.step_idle (.refl _) hthread.symm ⟨K.1, K.2.1, K.2.2, fun _ => hn⟩ of_none
  | pushTail head tail n =>
    have hmove := F.moveTail K.2.1 hrecent.2 K.2.2.2
    refine Fits.step_quiet (F.push K.2.1 hrecent.2 K.2.2.2 hthread.symm ?_ rfl) of_none
    rintro _ ⟨⟩
    have hhead : (s.mem.moveTail tail n).headStamp = s.mem.headStamp := Mem.moveTail_head ..
    refine ⟨hhead ▸ K.1, fun _ => ?_⟩
    exact Nat.lt_of_le_of_lt K.2.2.1 hmove.2.2
  | loadHeadNext head =>
    simp only [Pc.run]
    cases hn : s.mem.next head.node with
    | none => exact F.step_idle (.refl _) hthread.symm trivial of_none
    | some n =>
      exact F.step_idle (.refl _) hthread.symm ⟨K.1, fun hcur => ⟨K.2 hcur, hn⟩⟩ of_none
  | loadData head n =>
    exact F.step_idle (.refl _) hthread.symm
      ⟨K.1, fun hcur => ⟨(K.2 hcur).1, (K.2 hcur).2, rfl⟩⟩ of_none
  | casHead head n x =>
    simp only [Pc.run]
    by_cases hsame : s.mem.headStamp.same head = true
    · rw [if_pos hsame]
      exact F.unlink hpc (Stamped.eq_of_same K.1 hrecent hsame)
    · rw [if_neg hsame]
      exact F.step_idle (.refl _) hthread.symm trivial of_none
  | reloadTop x h => exact F.step_idle (.refl _) hthread.symm (.refl _) of_none
  | storeBelow x h top =>
    have hh : L.place h = .thread t := (F.mem_mine t h).mp (hown.1 ▸ List.mem_cons_self)
    exact F.write hh (fun _ _ => rfl) (fun _ _ => rfl) (fun q hq => update_of_ne hq _ _) hown
      ⟨K, update_self ..⟩ rfl (fun hb => hthread ▸ hb) (by rw [hown.1]; rfl)
  | pushTop x h top =>
    simp only [Pc.run]
    by_cases hsame : s.mem.topStamp.same top = true
    · rw [if_pos hsame]
      exact F.give hpc (Stamped.eq_of_same K.1 hrecent hsame)
    · rw [if_neg hsame]
      exact F.step_idle (.refl _) hthread.symm trivial of_none
  | discountUse x =>
    refine Fits.step_quiet (F.idle ⟨rfl, rfl, rfl, rfl, rfl, rfl, rfl⟩ hthread.symm of_none of_none) ?_
    rintro _ ⟨⟩
    trivial

end JunCore.LFQueueSteps
