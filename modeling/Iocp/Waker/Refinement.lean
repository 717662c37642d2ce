import Iocp.Waker.Exclusion

/-!
# The atomic waker refines the cell of the header

A registration takes effect when it gets the cell, a wake when it sets `WAKING`.
A wake that finds a registration under way leaves the waker in the hand of that
call, and a registration that finds a wake under way is one followed by a wake.
In this order the calls are the operations on one cell that the header has.
-/

namespace Iocp

open Totals Transition

/-- The header with its cell, and the wakers taken out of it and not woken yet. -/
structure WakerCell where
  header : Header
  hand : Multiset Nat

/-- What happens to the cell. -/
inductive WakerOp
  | register (waker : Nat)
  | wake
  /-- A waker that was taken out is woken. -/
  | deliver (waker : Nat)
  deriving DecidableEq

namespace WakerCell

def new : WakerCell := ⟨Header.new, 0⟩

def next (q : WakerCell) : WakerOp → Option WakerCell
  | .register waker => some { q with header := q.header.registerByRef waker }
  | .wake => some ⟨q.header.wake, q.hand + (q.header.waker.toList : Multiset Nat)⟩
  | .deliver waker =>
      if waker ∈ q.hand then some { q with hand := q.hand.erase waker } else none

/-- An operation with the call that it is part of. -/
def step (q : WakerCell) (e : Nat × WakerOp) : Option WakerCell := q.next e.2

theorem step_run {q r : WakerCell} {i : Nat} {op : WakerOp} (h : q.next op = some r) :
    Run step anyStep q [(i, op)] r :=
  .single trivial h

/-- The wakers that operations wake. -/
def delivered (es : List (Nat × WakerOp)) : List Nat :=
  es.filterMap fun
    | (_, .deliver waker) => some waker
    | _ => none

end WakerCell

namespace WakerFrame

/-- What the next access of a call does to the cell of the header. -/
def effects (a : AtomicWaker) (f : WakerFrame) : List WakerOp :=
  match f.pc, f.call with
  | .called, .registerByRef waker =>
      if a.state = AtomicWaker.waiting then [.register waker]
      else if a.state = AtomicWaker.waking then [.register waker, .wake]
      else []
  | .called, .wake => [.wake]
  | .waking waker, _ => [.deliver waker]
  | _, _ => []

/-- The waker that a call brings. -/
def brought (f : WakerFrame) : Multiset Nat :=
  match f.call with
  | .registerByRef waker => {waker}
  | .wake => 0

/-- The waker that a call is bound to wake. -/
def hand (a : AtomicWaker) (f : WakerFrame) : Multiset Nat :=
  match f.pc with
  | .store _ => if a.state = AtomicWaker.registering ||| AtomicWaker.waking then f.brought else 0
  | .release => if a.state = AtomicWaker.registering ||| AtomicWaker.waking then f.brought else 0
  | .takeBack => f.brought
  | .swap _ => f.brought
  | .take => a.waker.toList
  | .clear taken => taken.toList
  | .waking waker => {waker}
  | _ => 0

theorem hand_elsewhere {a b : AtomicWaker} {f : WakerFrame} (free : f.pc.holds = false) :
    f.hand b = f.hand a := by
  unfold hand
  cases hpc : f.pc <;> simp_all [WakerPc.holds]

end WakerFrame

namespace WakerSystem

/-- What a step does to the cell of the header, with the call that does it. -/
def effects (s : WakerSystem) : WakerAct → List (Nat × WakerOp)
  | .call _ => []
  | .access i =>
      match s.frames[i]? with
      | none => []
      | some f => (f.effects s.waker).map (Prod.mk i)

/-- The cell of the header while the word is what it is. -/
structure Refines (s : WakerSystem) (q : WakerCell) : Prop where
  idle : s.waker.state = AtomicWaker.waiting → q.header.waker = s.waker.waker
  registering : s.waker.state = AtomicWaker.registering →
    ∀ f ∈ s.frames, f.pc.holds = true → f.brought = (q.header.waker.toList : Multiset Nat)
  woken : s.waker.state = AtomicWaker.waking ∨
    s.waker.state = AtomicWaker.registering ||| AtomicWaker.waking → q.header.waker = none
  hand : q.hand = total (WakerFrame.hand s.waker) s.frames

variable {s : WakerSystem} {q : WakerCell} {i : Nat} {f : WakerFrame} {b : AtomicWaker}
  {pc : WakerPc}

/-- What is in hand after a step of the call that holds the cell, or gets it. -/
theorem hand_owned (excludes : s.Excludes) (frame : s.frames[i]? = some f)
    (mine : f.pc.holds = true ∨ s.waker.state = AtomicWaker.waiting) (rest : Multiset Nat)
    (own : WakerFrame.hand b { f with pc := pc } = rest + f.hand s.waker) :
    total (WakerFrame.hand b) (s.frames.set i { f with pc := pc }) =
      rest + total (WakerFrame.hand s.waker) s.frames := by
  have others : total (WakerFrame.hand b) (s.frames.eraseIdx i) =
      total (WakerFrame.hand s.waker) (s.frames.eraseIdx i) := by
    have same : ∀ g ∈ s.frames.eraseIdx i, g.hand b = g.hand s.waker := fun g member =>
      WakerFrame.hand_elsewhere (excludes.alone frame mine g member)
    rw [total, total, List.map_congr_left same]
  rw [total_set _ frame, total_eraseIdx _ frame, own, others, add_assoc]

/-- A step of the call that holds the cell, or gets it. -/
theorem Refines.owned {r : WakerCell} (refines : s.Refines q) (excludes : s.Excludes)
    (frame : s.frames[i]? = some f) (mine : f.pc.holds = true ∨ s.waker.state = AtomicWaker.waiting)
    (rest : Multiset Nat) (idle : b.state = AtomicWaker.waiting → r.header.waker = b.waker)
    (registering : b.state = AtomicWaker.registering →
      f.brought = (r.header.waker.toList : Multiset Nat))
    (woken : b.state = AtomicWaker.waking ∨
      b.state = AtomicWaker.registering ||| AtomicWaker.waking → r.header.waker = none)
    (own : WakerFrame.hand b { f with pc := pc } = rest + f.hand s.waker)
    (hand : r.hand = rest + q.hand) :
    Refines ⟨b, s.frames.set i { f with pc := pc }⟩ r where
  idle := idle
  registering := by
    intro word g member holds
    obtain ⟨hi, -⟩ := List.getElem?_eq_some_iff.mp frame
    rcases List.mem_cons.mp ((List.set_perm_cons_eraseIdx hi _).mem_iff.mp member) with rfl | other
    · exact registering word
    · rw [excludes.alone frame mine g other] at holds
      cases holds
  woken := woken
  hand := by rw [hand, refines.hand, hand_owned excludes frame mine rest own]

/-- A step of another call that leaves the word as it was. -/
theorem Refines.besides {r : WakerCell} (refines : s.Refines q) (frame : s.frames[i]? = some f)
    (after : pc.holds = false) (cell : r.header.waker = q.header.waker)
    (hand : r.hand + f.hand s.waker = q.hand + WakerFrame.hand s.waker { f with pc := pc }) :
    Refines ⟨s.waker, s.frames.set i { f with pc := pc }⟩ r where
  idle word := cell.trans (refines.idle word)
  registering := by
    intro word g member holds
    rcases List.mem_or_eq_of_mem_set member with old | rfl
    · exact cell ▸ refines.registering word g old holds
    · rw [after] at holds
      cases holds
  woken word := cell.trans (refines.woken word)
  hand := by
    have before := refines.hand
    rw [total_eraseIdx _ frame] at before
    rw [total_set _ frame]
    apply add_right_cancel (b := f.hand s.waker)
    rw [hand, before]
    ac_rfl

/-- A wake that finds a registration under way leaves it the waker. -/
theorem hand_signalled (refines : s.Refines q) (excludes : s.Excludes)
    (word : s.waker.state = AtomicWaker.registering) :
    total (WakerFrame.hand
        { s.waker with state := AtomicWaker.registering ||| AtomicWaker.waking }) s.frames =
      (q.header.waker.toList : Multiset Nat) + total (WakerFrame.hand s.waker) s.frames := by
  obtain ⟨g, member, holds⟩ := excludes.holder (by simp [word])
  obtain ⟨j, frame⟩ := List.getElem?_of_mem member
  have alone := excludes.alone frame (.inl holds)
  have others : total (WakerFrame.hand
        { s.waker with state := AtomicWaker.registering ||| AtomicWaker.waking })
        (s.frames.eraseIdx j) = total (WakerFrame.hand s.waker) (s.frames.eraseIdx j) := by
    have same : ∀ g ∈ s.frames.eraseIdx j, g.hand
        { s.waker with state := AtomicWaker.registering ||| AtomicWaker.waking } =
          g.hand s.waker := fun g member => WakerFrame.hand_elsewhere (alone g member)
    rw [total, total, List.map_congr_left same]
  have own : g.hand { s.waker with state := AtomicWaker.registering ||| AtomicWaker.waking } =
      g.brought ∧ g.hand s.waker = 0 := by
    have fits := excludes.fits g member
    obtain ⟨call, pc⟩ := g
    cases pc with
    | store waker | release => simp [WakerFrame.hand, word]
    | takeBack => simp [WakerFrame.Fits, word] at fits
    | swap waker => simp [WakerFrame.Fits, word] at fits
    | take => simp [WakerFrame.Fits, word] at fits
    | clear taken => simp [WakerFrame.Fits, word] at fits
    | _ => cases holds
  rw [total_eraseIdx _ frame, total_eraseIdx _ frame, own.1, own.2, others, zero_add,
    refines.registering word g member holds]

theorem Refines.signal (refines : s.Refines q) (excludes : s.Excludes)
    (frame : s.frames[i]? = some ⟨.wake, .called⟩)
    (busy : s.waker.state ≠ AtomicWaker.waiting) :
    Refines
      ⟨{ s.waker with state := s.waker.state ||| AtomicWaker.waking },
        s.frames.set i ⟨.wake, .returned⟩⟩
      ⟨q.header.wake, q.hand + (q.header.waker.toList : Multiset Nat)⟩ := by
  have marked (none : q.header.waker = none)
      (word : s.waker.state ||| AtomicWaker.waking = s.waker.state) : Refines
      ⟨{ s.waker with state := s.waker.state ||| AtomicWaker.waking },
        s.frames.set i ⟨.wake, .returned⟩⟩
      ⟨q.header.wake, q.hand + (q.header.waker.toList : Multiset Nat)⟩ := by
    rw [word]
    exact refines.besides frame rfl none.symm (by simp [none, WakerFrame.hand])
  rcases excludes.known with word | word | word | word
  · exact absurd word busy
  · rw [word]
    constructor
    · simp
    · simp
    · exact fun _ => rfl
    · have signalled := hand_signalled refines excludes word
      rw [← refines.hand, total_eraseIdx _ frame] at signalled
      rw [total_set _ frame, add_comm q.hand, ← signalled]
      rfl
  · exact marked (refines.woken (.inl word)) (by simp [word])
  · exact marked (refines.woken (.inr word)) (by simp [word])

/-- An access does to the cell of the header what it is said to do. -/
theorem Refines.access (refines : s.Refines q) (excludes : s.Excludes)
    (frame : s.frames[i]? = some f) (accesses : s.waker.Accesses f b pc) :
    ∃ r, Run WakerCell.step anyStep q ((f.effects s.waker).map (Prod.mk i)) r ∧
      Refines ⟨b, s.frames.set i { f with pc := pc }⟩ r := by
  have fits := excludes.fits f (List.mem_of_getElem? frame)
  have member := List.mem_of_getElem? frame
  cases accesses with
  | @acquire waker word =>
      have effects : (WakerFrame.mk (.registerByRef waker) .called).effects s.waker =
        [.register waker] := if_pos word
      rw [effects]
      refine ⟨_, WakerCell.step_run rfl, refines.owned excludes frame (.inr word) 0 ?_ ?_ ?_ ?_ ?_⟩
      · simp
      · exact fun _ => rfl
      · simp
      · simp [WakerFrame.hand]
      · exact (zero_add _).symm
  | @meet waker word =>
      have none := refines.woken (.inl word)
      have effects : (WakerFrame.mk (.registerByRef waker) .called).effects s.waker =
        [.register waker, .wake] := by simp [WakerFrame.effects, word]
      rw [effects]
      exact ⟨_, (WakerCell.step_run rfl).append (WakerCell.step_run rfl),
        refines.besides frame rfl none.symm (add_zero _)⟩
  | @refuse waker word =>
      have effects : (WakerFrame.mk (.registerByRef waker) .called).effects s.waker = [] := by
        rcases word with word | word <;> simp [WakerFrame.effects, word]
      rw [effects]
      exact ⟨q, .nil, refines.besides frame rfl rfl rfl⟩
  | store =>
      exact ⟨q, .nil, refines.owned excludes frame (.inl rfl) 0
        (fun word => absurd word (AtomicWaker.register_ne fits.2))
        (fun word => refines.registering word _ member rfl) refines.woken
        (zero_add _).symm (zero_add _).symm⟩
  | @release call word =>
      obtain ⟨-, waker, rfl, stored⟩ := fits
      have cell := refines.registering word _ member rfl
      refine ⟨q, .nil, refines.owned excludes frame (.inl rfl) 0 ?_ ?_ ?_ ?_ (zero_add _).symm⟩
      · intro _
        rw [stored]
        cases held : q.header.waker with
        | none => simp [WakerFrame.brought, held] at cell
        | some other => simpa [WakerFrame.brought, held] using cell.symm
      · simp
      · simp
      · simp [WakerFrame.hand, word]
  | interrupted word =>
      refine ⟨q, .nil, refines.owned excludes frame (.inl rfl) 0 ?_ ?_ refines.woken ?_
        (zero_add _).symm⟩
      · simp [word]
      · simp [word]
      · simp [WakerFrame.hand, word, WakerFrame.brought]
  | takeBack stored =>
      refine ⟨q, .nil, refines.owned excludes frame (.inl rfl) 0 ?_ ?_ refines.woken
        (zero_add _).symm (zero_add _).symm⟩
      · simp [fits.1]
      · simp [fits.1]
  | @swap call waker =>
      obtain ⟨rfl, word, stored⟩ := fits
      refine ⟨q, .nil, refines.owned excludes frame (.inl rfl) 0 ?_ ?_ ?_
        (zero_add _).symm (zero_add _).symm⟩
      · exact fun _ => (refines.woken (.inr word)).trans stored.symm
      · simp
      · simp
  | lock word =>
      have cell := refines.idle word
      refine ⟨_, WakerCell.step_run rfl, refines.owned excludes frame (.inr word)
        (q.header.waker.toList : Multiset Nat) ?_ ?_ (fun _ => rfl) ?_ (add_comm _ _)⟩
      · simp
      · simp
      · simp [WakerFrame.hand, cell]
  | signal word => exact ⟨_, WakerCell.step_run rfl, refines.signal excludes frame word⟩
  | take =>
      refine ⟨q, .nil, refines.owned excludes frame (.inl rfl) 0 ?_ ?_ refines.woken
        (zero_add _).symm (zero_add _).symm⟩
      · simp [fits.2]
      · simp [fits.2]
  | @clear call taken word =>
      refine ⟨q, .nil, refines.owned excludes frame (.inl rfl) 0 ?_ ?_ ?_ ?_ (zero_add _).symm⟩
      · exact fun _ => (refines.woken (.inl word)).trans fits.2.2.symm
      · simp
      · simp
      · cases taken <;> simp [WakerFrame.hand]
  | @waking call waker =>
      have held : waker ∈ q.hand := by
        rw [refines.hand, mem_total]
        exact ⟨_, member, Multiset.mem_singleton_self waker⟩
      refine ⟨_, WakerCell.step_run (if_pos held), refines.besides frame rfl rfl ?_⟩
      change q.hand.erase waker + {waker} = q.hand + 0
      rw [add_comm, Multiset.singleton_add, Multiset.cons_erase held, add_zero]

theorem start_refines : start.Refines WakerCell.new where
  idle _ := rfl
  registering := by simp [start]
  woken _ := rfl
  hand := rfl

/-- Every step is what it does to the cell of the header. -/
theorem Refines.step {t : WakerSystem} {a : WakerAct} (refines : s.Refines q)
    (excludes : s.Excludes) (h : s.next a = some t) :
    ∃ r, Run WakerCell.step anyStep q (s.effects a) r ∧ t.Refines r := by
  cases a with
  | call call =>
      cases h
      refine ⟨q, .nil, refines.idle, ?_, refines.woken, ?_⟩
      · intro word f member holds
        rcases List.mem_append.mp member with old | new
        · exact refines.registering word f old holds
        · cases List.mem_singleton.mp new
          cases holds
      · simp [refines.hand, WakerFrame.hand]
  | access i =>
      obtain ⟨f, b, pc, frame, access, rfl⟩ := next_access h
      have fits := excludes.fits f (List.mem_of_getElem? frame)
      have accesses := AtomicWaker.access_accesses fits excludes.known access
      simp only [effects, frame]
      exact refines.access excludes frame accesses

/-- The wakers woken in a step are those its operations deliver. -/
theorem woken_delivered (s : WakerSystem) (a : WakerAct) :
    s.woken a = WakerCell.delivered (s.effects a) := by
  cases a with
  | call call => rfl
  | access i =>
      simp only [woken, effects]
      cases s.frames[i]? with
      | none => rfl
      | some f =>
          obtain ⟨call, pc⟩ := f
          simp only [Option.map_some, WakerFrame.effects]
          cases pc <;> cases call <;> (repeat' split) <;> simp_all [WakerCell.delivered]

/-- The effects of a run in order are a run of the cell. -/
theorem run_refines {as : List WakerAct} (run : Run next anyStep start as s) :
    ∃ q, Run WakerCell.step anyStep WakerCell.new (observe next effects start as) q ∧
      s.Refines q := by
  obtain ⟨q, seen, refines, -⟩ := run.simulated (R := fun s q => s.Refines q ∧ s.Excludes)
    ⟨start_refines, start_excludes⟩ fun s a t q related _ h => by
      obtain ⟨r, ops, refines⟩ := related.1.step related.2 h
      exact ⟨r, ops, refines, related.2.step h⟩
  exact ⟨q, seen, refines⟩

/-- The wakers woken are those that the operations deliver. -/
theorem observe_woken (as : List WakerAct) :
    observe next woken start as = WakerCell.delivered (observe next effects start as) :=
  observe_derived effects WakerCell.delivered rfl (by simp [WakerCell.delivered])
    woken_delivered start as

/-- The calls on a waker are operations on the cell of a header, one after the other, and
wake what these take out of it. -/
theorem waker_refines {as : List WakerAct} (run : Run next anyStep start as s) :
    ∃ q, Run WakerCell.step anyStep WakerCell.new (observe next effects start as) q ∧
      observe next woken start as = WakerCell.delivered (observe next effects start as) ∧
      s.Refines q := by
  obtain ⟨q, seen, refines⟩ := run_refines run
  exact ⟨q, seen, observe_woken as, refines⟩

/-- The registration of `interrupted` wakes its own waker. -/
theorem waker_refines_interrupted : ∃ s q,
    Run next anyStep start (interrupted ++ List.replicate 3 (.access 0)) s ∧
      Run WakerCell.step anyStep WakerCell.new
        [(0, .register 7), (1, .wake), (0, .deliver 7)] q ∧ s.Refines q := by
  obtain ⟨s, executed⟩ : ∃ s, exec next anyStep start
      (interrupted ++ List.replicate 3 (.access 0)) = some s := ⟨_, rfl⟩
  obtain ⟨q, ops, -, refines⟩ := waker_refines (exec_run executed)
  exact ⟨s, q, exec_run executed, ops, refines⟩

end WakerSystem

end Iocp
