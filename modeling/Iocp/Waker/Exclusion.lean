import Iocp.Library.Totals
import Iocp.Model.AtomicWaker

/-!
# One call at a time holds the cell

The word is not `WAITING` exactly while one call holds the cell, and what it
may be besides depends on where this call stands. All other calls leave the
cell alone, so no access to it races with another one.
-/

namespace Iocp

open Totals Transition

namespace WakerPc

/-- The call has the exclusive access to the cell. -/
def holds : WakerPc → Bool
  | store _ => true
  | release => true
  | takeBack => true
  | swap _ => true
  | take => true
  | clear _ => true
  | _ => false

end WakerPc

namespace WakerFrame

/-- The calls that hold the cell, counted. -/
def holding (f : WakerFrame) : Nat := if f.pc.holds then 1 else 0

/-- What the word and the cell are while a call stands where it does. -/
def Fits (a : AtomicWaker) (f : WakerFrame) : Prop :=
  match f.pc with
  | .store waker =>
      f.call = .registerByRef waker ∧
        (a.state = AtomicWaker.registering ∨
          a.state = AtomicWaker.registering ||| AtomicWaker.waking)
  | .release =>
      (a.state = AtomicWaker.registering ∨
        a.state = AtomicWaker.registering ||| AtomicWaker.waking) ∧
        ∃ waker, f.call = .registerByRef waker ∧ a.waker = some waker
  | .takeBack =>
      a.state = AtomicWaker.registering ||| AtomicWaker.waking ∧
        ∃ waker, f.call = .registerByRef waker ∧ a.waker = some waker
  | .swap waker =>
      f.call = .registerByRef waker ∧
        a.state = AtomicWaker.registering ||| AtomicWaker.waking ∧ a.waker = none
  | .take => f.call = .wake ∧ a.state = AtomicWaker.waking
  | .clear _ => f.call = .wake ∧ a.state = AtomicWaker.waking ∧ a.waker = none
  | .panicked => False
  | _ => True

/-- A call without the cell fits whatever happens to it. -/
theorem Fits.elsewhere {a b : AtomicWaker} {f : WakerFrame} (fits : f.Fits a)
    (holds : f.pc.holds = false) : f.Fits b := by
  unfold Fits at *
  cases hpc : f.pc <;> simp_all [WakerPc.holds]

/-- Setting `WAKING` in a word that was not `WAITING` keeps every call where it fits. -/
theorem Fits.signalled {a : AtomicWaker} {f : WakerFrame} (fits : f.Fits a) :
    f.Fits { a with state := a.state ||| AtomicWaker.waking } := by
  unfold Fits at *
  cases hpc : f.pc with
  | store waker =>
      rw [hpc] at fits
      obtain ⟨call, word | word⟩ := fits
      · exact ⟨call, .inr (by rw [word])⟩
      · exact ⟨call, .inr (by simp [word])⟩
  | release =>
      rw [hpc] at fits
      obtain ⟨word | word, stored⟩ := fits
      · exact ⟨.inr (by rw [word]), stored⟩
      · exact ⟨.inr (by simp [word]), stored⟩
  | takeBack | swap waker | take | clear taken => simp_all
  | panicked => simp [hpc] at fits
  | _ => trivial

end WakerFrame

/-- The next access of a call at a word that fits it. -/
inductive AtomicWaker.Accesses (a : AtomicWaker) : WakerFrame → AtomicWaker → WakerPc → Prop
  /-- A registration gets the cell. -/
  | acquire {waker} (idle : a.state = waiting) :
      Accesses a ⟨.registerByRef waker, .called⟩ { a with state := registering } (.store waker)
  /-- A registration meets a wake. -/
  | meet {waker} (busy : a.state = waking) :
      Accesses a ⟨.registerByRef waker, .called⟩ a (.waking waker)
  /-- A registration meets another one and is dropped. -/
  | refuse {waker} (busy : a.state = registering ∨ a.state = registering ||| waking) :
      Accesses a ⟨.registerByRef waker, .called⟩ a .returned
  | store {call waker} :
      Accesses a ⟨call, .store waker⟩ { a with waker := some waker } .release
  | release {call} (word : a.state = registering) :
      Accesses a ⟨call, .release⟩ { a with state := waiting } .returned
  /-- A wake has come in between. -/
  | interrupted {call} (word : a.state = registering ||| waking) :
      Accesses a ⟨call, .release⟩ a .takeBack
  | takeBack {call waker} (stored : a.waker = some waker) :
      Accesses a ⟨call, .takeBack⟩ { a with waker := none } (.swap waker)
  | swap {call waker} : Accesses a ⟨call, .swap waker⟩ { a with state := waiting } (.waking waker)
  /-- A wake gets the cell. -/
  | lock (idle : a.state = waiting) :
      Accesses a ⟨.wake, .called⟩ { a with state := waking } .take
  /-- A wake leaves its mark for the call that holds the cell. -/
  | signal (busy : a.state ≠ waiting) :
      Accesses a ⟨.wake, .called⟩ { a with state := a.state ||| waking } .returned
  | take {call} : Accesses a ⟨call, .take⟩ { a with waker := none } (.clear a.waker)
  | clear {call taken} (word : a.state = waking) :
      Accesses a ⟨call, .clear taken⟩ { a with state := waiting } (taken.elim .returned .waking)
  | waking {call waker} : Accesses a ⟨call, .waking waker⟩ a .returned

namespace AtomicWaker

/-- The words that occur. -/
def Known (a : AtomicWaker) : Prop :=
  a.state = waiting ∨ a.state = registering ∨ a.state = waking ∨ a.state = registering ||| waking

variable {a b : AtomicWaker} {f : WakerFrame} {pc : WakerPc}

/-- No assertion fails at a known word, and no `unwrap` in a call that fits. -/
theorem access_accesses (fits : f.Fits a) (known : a.Known) (h : a.access f = some (b, pc)) :
    a.Accesses f b pc := by
  obtain ⟨call, at'⟩ := f
  cases at' with
  | called =>
      cases call with
      | registerByRef waker =>
          simp only [access, doRegister, compareExchange, Option.some.injEq] at h
          rcases known with word | word | word | word
          · rw [if_pos word] at h
            cases h
            exact .acquire word
          · simp only [word, words_apart, if_false, if_true, true_or] at h
            cases h
            exact .refuse (.inl word)
          · simp only [word, words_apart, if_false, if_true] at h
            cases h
            exact .meet word
          · simp only [word, both_apart, marked_ne, if_false, if_true, or_true] at h
            cases h
            exact .refuse (.inr word)
      | wake =>
          simp only [access, takeWaker, Option.some.injEq] at h
          by_cases idle : a.state = waiting
          · rw [if_pos idle] at h
            cases h
            have set : a.state ||| waking = waking := by rw [idle]; decide
            rw [set]
            exact .lock idle
          · rw [if_neg idle, if_pos (by rcases known with h | h | h | h <;> simp_all)] at h
            cases h
            exact .signal idle
  | store waker =>
      cases h
      exact .store
  | release =>
      simp only [access, releaseRegister, compareExchange, Option.some.injEq] at h
      rcases fits.1 with word | word
      · rw [if_pos word] at h
        cases h
        exact .release word
      · simp only [word, both_apart, if_false, if_true] at h
        cases h
        exact .interrupted word
  | takeBack =>
      obtain ⟨-, waker, -, stored⟩ := fits
      simp only [access, AtomicWaker.takeBack, stored] at h
      cases h
      exact .takeBack stored
  | swap waker =>
      cases h
      exact .swap
  | take =>
      cases h
      exact .take
  | clear taken =>
      cases h
      have cleared : a.state &&& ~~~waking = waiting := by rw [fits.2.1]; decide
      exact cleared ▸ .clear fits.2.1
  | waking waker =>
      cases h
      exact .waking
  | returned | panicked => cases h

/-- A call without the cell makes the same access whatever the cell contains. -/
theorem access_elsewhere (a : AtomicWaker) (free : f.pc.holds = false) (cell : Option Nat) :
    access { a with waker := cell } f =
      (a.access f).map fun (b, pc) => ({ b with waker := cell }, pc) := by
  obtain ⟨call, at'⟩ := f
  cases at' with
  | called =>
      cases call with
      | registerByRef waker =>
          simp only [access, doRegister, compareExchange, Option.map_some]
          by_cases idle : a.state = waiting
          · simp only [if_pos idle]
          · simp only [if_neg idle]
            split
            · rfl
            · split <;> rfl
      | wake => rfl
  | waking waker | returned | panicked => rfl
  | _ => cases free

end AtomicWaker

namespace WakerSystem

/-- The word says whether a call holds the cell, and every call fits the word. -/
structure Excludes (s : WakerSystem) : Prop where
  one : total WakerFrame.holding s.frames = if s.waker.state = AtomicWaker.waiting then 0 else 1
  fits : ∀ f ∈ s.frames, f.Fits s.waker

variable {s t : WakerSystem} {i : Nat} {f : WakerFrame}

/-- A call holds the cell while the word is not `WAITING`. -/
theorem Excludes.holder (excludes : s.Excludes) (busy : s.waker.state ≠ AtomicWaker.waiting) :
    ∃ f ∈ s.frames, f.pc.holds = true := by
  by_contra none
  have zero := total_eq_zero (f := WakerFrame.holding) (l := s.frames) fun f member =>
    if_neg fun holds => none ⟨f, member, holds⟩
  rw [excludes.one, if_neg busy] at zero
  cases zero

/-- A word that is not `WAITING` is that of the call that holds the cell. -/
theorem Excludes.known (excludes : s.Excludes) : s.waker.Known := by
  by_cases idle : s.waker.state = AtomicWaker.waiting
  · exact .inl idle
  · obtain ⟨f, member, holds⟩ := excludes.holder idle
    have fits := excludes.fits f member
    obtain ⟨call, pc⟩ := f
    cases pc with
    | store waker =>
        obtain ⟨-, word | word⟩ := fits
        · exact .inr (.inl word)
        · exact .inr (.inr (.inr word))
    | release =>
        obtain ⟨word | word, -⟩ := fits
        · exact .inr (.inl word)
        · exact .inr (.inr (.inr word))
    | takeBack => exact .inr (.inr (.inr fits.1))
    | swap waker => exact .inr (.inr (.inr fits.2.1))
    | take => exact .inr (.inr (.inl fits.2))
    | clear taken => exact .inr (.inr (.inl fits.2.1))
    | _ => cases holds

/-- What a step of a call does to the system. -/
theorem next_access (h : s.next (.access i) = some t) :
    ∃ f b pc, s.frames[i]? = some f ∧ s.waker.access f = some (b, pc) ∧
      t = ⟨b, s.frames.set i { f with pc := pc }⟩ := by
  simp only [next] at h
  split at h
  case h_1 => cases h
  case h_2 f frame =>
      obtain ⟨⟨b, pc⟩, access, rfl⟩ := Option.map_eq_some_iff.mp h
      exact ⟨f, b, pc, frame, access, rfl⟩

/-- The calls that hold the cell besides the one that steps. -/
theorem Excludes.others (excludes : s.Excludes) (frame : s.frames[i]? = some f) :
    f.holding + total WakerFrame.holding (s.frames.eraseIdx i) =
      if s.waker.state = AtomicWaker.waiting then 0 else 1 := by
  rw [← total_eraseIdx _ frame, excludes.one]

/-- A call that holds the cell, or gets it, is the only one. -/
theorem Excludes.alone (excludes : s.Excludes) (frame : s.frames[i]? = some f)
    (mine : f.pc.holds = true ∨ s.waker.state = AtomicWaker.waiting) :
    ∀ g ∈ s.frames.eraseIdx i, g.pc.holds = false := by
  have others := excludes.others frame
  have none : total WakerFrame.holding (s.frames.eraseIdx i) = 0 := by
    rcases mine with mine | idle
    · rw [WakerFrame.holding, if_pos mine] at others
      split at others <;> omega
    · rw [if_pos idle] at others
      omega
  intro g member
  simpa [WakerFrame.holding] using eq_zero_of_total none member

/-- A step of the call that holds the cell, or gets it. -/
theorem Excludes.owned {b : AtomicWaker} {pc : WakerPc} (excludes : s.Excludes)
    (frame : s.frames[i]? = some f) (mine : f.pc.holds = true ∨ s.waker.state = AtomicWaker.waiting)
    (after : pc.holds = false ↔ b.state = AtomicWaker.waiting)
    (fits : WakerFrame.Fits b { f with pc := pc }) :
    Excludes ⟨b, s.frames.set i { f with pc := pc }⟩ := by
  have alone := excludes.alone frame mine
  constructor
  · rw [total_set _ frame,
      total_eq_zero fun g member => by simp [WakerFrame.holding, alone g member]]
    simp only [WakerFrame.holding, ← after]
    cases pc.holds <;> rfl
  · intro g member
    obtain ⟨hi, -⟩ := List.getElem?_eq_some_iff.mp frame
    rcases List.mem_cons.mp ((List.set_perm_cons_eraseIdx hi _).mem_iff.mp member) with rfl | rest
    · exact fits
    · exact (excludes.fits g (List.mem_of_mem_eraseIdx rest)).elsewhere (alone g rest)

/-- A step of a call that does not get the cell. -/
theorem Excludes.besides {b : AtomicWaker} {pc : WakerPc} (excludes : s.Excludes)
    (frame : s.frames[i]? = some f) (before : f.pc.holds = false) (after : pc.holds = false)
    (word : b.state = AtomicWaker.waiting ↔ s.waker.state = AtomicWaker.waiting)
    (keeps : ∀ g : WakerFrame, g.Fits s.waker → g.Fits b)
    (fits : WakerFrame.Fits b { f with pc := pc }) :
    Excludes ⟨b, s.frames.set i { f with pc := pc }⟩ := by
  constructor
  · have others := excludes.others frame
    simp only [WakerFrame.holding, before] at others
    simp only [total_set _ frame, WakerFrame.holding, after, word]
    exact others
  · intro g member
    rcases List.mem_or_eq_of_mem_set member with old | rfl
    · exact keeps g (excludes.fits g old)
    · exact fits

theorem Excludes.access {b : AtomicWaker} {pc : WakerPc} (excludes : s.Excludes)
    (frame : s.frames[i]? = some f) (accesses : s.waker.Accesses f b pc) :
    Excludes ⟨b, s.frames.set i { f with pc := pc }⟩ := by
  have fits := excludes.fits f (List.mem_of_getElem? frame)
  have taken {pc : WakerPc} {b : AtomicWaker} (holds : pc.holds = true)
      (word : b.state ≠ AtomicWaker.waiting) :
      pc.holds = false ↔ b.state = AtomicWaker.waiting := by simp [holds, word]
  cases accesses with
  | acquire idle =>
      exact excludes.owned frame (.inr idle) (taken rfl (by simp)) ⟨rfl, .inl rfl⟩
  | meet busy | refuse busy | waking =>
      exact excludes.besides frame rfl rfl Iff.rfl (fun _ fits => fits) trivial
  | store =>
      refine excludes.owned frame (.inl rfl) (taken rfl ?_) ⟨fits.2, _, fits.1, rfl⟩
      exact AtomicWaker.register_ne fits.2
  | interrupted word =>
      exact excludes.owned frame (.inl rfl) (taken rfl (AtomicWaker.register_ne fits.1))
        ⟨word, fits.2⟩
  | takeBack stored =>
      obtain ⟨word, waker, call, cell⟩ := fits
      cases cell.symm.trans stored
      exact excludes.owned frame (.inl rfl) (taken rfl (AtomicWaker.register_ne (.inr word)))
        ⟨call, word, rfl⟩
  | lock idle =>
      exact excludes.owned frame (.inr idle) (taken rfl (by simp)) ⟨rfl, rfl⟩
  | signal busy =>
      refine excludes.besides frame rfl rfl ?_ (fun _ fits => fits.signalled) trivial
      exact iff_of_false (AtomicWaker.marked_ne _) busy
  | take =>
      refine excludes.owned frame (.inl rfl) (taken rfl ?_) ⟨fits.1, fits.2, rfl⟩
      simp [fits.2]
  | release word | swap => exact excludes.owned frame (.inl rfl) (iff_of_true rfl rfl) trivial
  | @clear call taken word =>
      refine excludes.owned frame (.inl rfl) (iff_of_true ?_ rfl) ?_
      · cases taken <;> rfl
      · cases taken <;> trivial

/-- Every step keeps the exclusion. -/
theorem Excludes.step {a : WakerAct} (excludes : s.Excludes) (h : s.next a = some t) :
    t.Excludes := by
  cases a with
  | call call =>
      cases h
      constructor
      · rw [total_append, excludes.one]
        rfl
      · intro f member
        rcases List.mem_append.mp member with old | new
        · exact excludes.fits f old
        · cases List.mem_singleton.mp new
          trivial
  | access i =>
      obtain ⟨f, b, pc, frame, access, rfl⟩ := next_access h
      have fits := excludes.fits f (List.mem_of_getElem? frame)
      exact excludes.access frame (AtomicWaker.access_accesses fits excludes.known access)

theorem start_excludes : start.Excludes := ⟨rfl, by simp [start]⟩

theorem reached_excludes (reach : Reaches next anyStep start s) : s.Excludes :=
  reach.invariant start_excludes fun _ _ _ excludes _ h => excludes.step h

/-- The word is `WAITING` exactly when nobody holds the cell. -/
theorem Excludes.word (excludes : s.Excludes) :
    s.waker.state = AtomicWaker.waiting ↔ ∀ f ∈ s.frames, f.pc.holds = false := by
  constructor
  · intro idle f member
    have zero : total WakerFrame.holding s.frames = 0 := excludes.one.trans (if_pos idle)
    simpa [WakerFrame.holding] using eq_zero_of_total zero member
  · intro none
    by_contra busy
    obtain ⟨f, member, holds⟩ := excludes.holder busy
    rw [none f member] at holds
    cases holds

/-- No assertion fails. -/
theorem Excludes.sound (excludes : s.Excludes) : ∀ f ∈ s.frames, f.pc ≠ .panicked := by
  intro f member panicked
  have fits := excludes.fits f member
  rw [WakerFrame.Fits, panicked] at fits
  exact fits

/-- At most one call holds the cell, one does exactly while the word is not `WAITING`,
every other call leaves the cell alone, and no assertion fails. -/
structure Safe (s : WakerSystem) : Prop where
  one : ∀ (i j : Nat) (f g : WakerFrame), s.frames[i]? = some f → s.frames[j]? = some g →
    f.pc.holds = true → g.pc.holds = true → i = j
  word : s.waker.state = AtomicWaker.waiting ↔ ∀ f ∈ s.frames, f.pc.holds = false
  /-- A call that does not hold the cell neither reads nor writes it. -/
  apart : ∀ f ∈ s.frames, f.pc.holds = false → ∀ cell,
    AtomicWaker.access { s.waker with waker := cell } f =
      (s.waker.access f).map fun (b, pc) => ({ b with waker := cell }, pc)
  sound : ∀ f ∈ s.frames, f.pc ≠ .panicked

/-- The waker is safe under any number of concurrent calls. -/
theorem waker_safe (reach : Reaches next anyStep start s) : s.Safe := by
  have excludes := reached_excludes reach
  refine ⟨?_, excludes.word, fun f _ free cell => s.waker.access_elsewhere free cell,
    excludes.sound⟩
  intro i j f g hf hg mine yours
  by_contra apart
  have alone := excludes.alone hf (.inl mine)
  obtain ⟨hj, rfl⟩ := List.getElem?_eq_some_iff.mp hg
  have member : s.frames[j] ∈ s.frames.eraseIdx i :=
    List.mem_eraseIdx_iff_getElem.mpr ⟨j, hj, fun same => apart same.symm, rfl⟩
  rw [alone _ member] at yours
  cases yours

/-- A wake comes in between while a registration holds the cell. -/
def interrupted : List WakerAct :=
  [.call (.registerByRef 7), .access 0, .call .wake, .access 1, .access 0, .access 0]

theorem waker_safe_interrupted : ∃ s, Reaches next anyStep start s ∧
    s.frames = [⟨.registerByRef 7, .takeBack⟩, ⟨.wake, .returned⟩] ∧ s.Safe := by
  obtain ⟨s, executed, frames⟩ : ∃ s, exec next anyStep start interrupted = some s ∧
      s.frames = [⟨.registerByRef 7, .takeBack⟩, ⟨.wake, .returned⟩] := ⟨_, rfl, rfl⟩
  have reach : Reaches next anyStep start s := ⟨interrupted, exec_run executed⟩
  exact ⟨s, reach, frames, waker_safe reach⟩

end WakerSystem

end Iocp
