import Iocp.Link.Files

/-!
# Two handles at the ends of a pipe

The operating system keeps what it accepted from the writer and hands it to the
reader, in the order in which it got it. Around it are the two handles, each with
its polls, its packets and its buffers. The bytes that the reader's callers get are
those that the writer's callers were told, however either side cuts them.
-/

namespace Iocp

open Extents Mailbox Totals Transition

/-- The system and the bytes that are in a pipe. -/
structure Piped where
  world : World
  pipe : List UInt8

namespace World

/-- The bytes that the operating system accepts from owner `i`. -/
def poured (i : Nat) (w : World) (a : Action) : List UInt8 := contents (w.stores i a)

/-- The bytes that the operating system hands to owner `j`. -/
def drawn (j : Nat) (w : World) : Action → List UInt8
  | .complete k status =>
      match w.inFlight[k]? with
      | some op => if op.owner = j then status.data else []
      | none => []
  | _ => []

/-- The pipe after a step: what owner `i` wrote is put at its end, and what owner `j`
read was at its beginning. -/
def piped (i j : Nat) (w : World) (pipe : List UInt8) (a : Action) : Option (List UInt8) :=
  if w.drawn j a <+: pipe then some (pipe.drop (w.drawn j a).length ++ w.poured i a) else none

end World

namespace Piped

variable {i j : Nat}

/-- A port with its threads, and an empty pipe. -/
def start (loops : List Loop) : Piped := ⟨World.start loops, []⟩

/-- A step of the system with a pipe from owner `i` to owner `j`. -/
def next (i j : Nat) (p : Piped) (a : Action) : Option Piped :=
  (p.world.next a).bind fun w => (p.world.piped i j p.pipe a).map fun pipe => ⟨w, pipe⟩

theorem next_eq_some {p q : Piped} {a : Action} (h : next i j p a = some q) :
    p.world.next a = some q.world ∧ p.world.drawn j a <+: p.pipe ∧
      q.pipe = p.pipe.drop (p.world.drawn j a).length ++ p.world.poured i a := by
  obtain ⟨w, step, h⟩ := Option.bind_eq_some_iff.mp h
  obtain ⟨pipe, after, rfl⟩ := Option.map_eq_some_iff.mp h
  obtain ⟨first, same⟩ := Option.ite_none_right_eq_some.mp after
  exact ⟨step, first, (Option.some.inj same).symm⟩

end Piped

namespace World

section Pipes

variable {i j : Nat} {loops : List Loop} {as : List Action} {p q : Piped} {a : Action}

/-- The system runs beside the pipe. -/
theorem piped_run {ok : World → Action → Prop}
    (run : Run (Piped.next i j) (fun p a => ok p.world a) (Piped.start loops) as p) :
    Run next ok (start loops) as p.world := by
  have image : Run next ok (start loops) (as.map id) p.world :=
    run.map fun _ _ _ good h => ⟨good, (Piped.next_eq_some h).1⟩
  rwa [List.map_id] at image

/-- The pipe is first in, first out. -/
theorem pipe_fifo (h : Piped.next i j p a = some q) :
    p.pipe ++ p.world.poured i a = p.world.drawn j a ++ q.pipe := by
  obtain ⟨-, ⟨rest, first⟩, after⟩ := Piped.next_eq_some h
  rw [after, ← first, List.drop_left, List.append_assoc]

/-- What was read from the pipe was written to it, but for what it still holds. -/
theorem run_piped (run : Run (Piped.next i j) anyStep (Piped.start loops) as p) :
    observe next (poured i) (start loops) as =
      observe next (drawn j) (start loops) as ++ p.pipe := by
  have sim : ∀ p a q, Piped.next i j p a = some q → p.world.next a = some q.world :=
    fun _ _ _ h => (Piped.next_eq_some h).1
  have fifo := run.conserved Piped.pipe (fun p a => p.world.poured i a)
    (fun p a => p.world.drawn j a) rfl fun p a q _ _ h => pipe_fifo h
  rwa [run.observe_map (poured i) sim, run.observe_map (drawn j) sim] at fifo

/-- What the reader gets is drawn from the pipe. -/
theorem transferred_drawn (j : Nat) (w : World) (a : Action) :
    w.transferred j a = (w.drawn j a).map some := by
  cases a with
  | complete k status =>
      simp only [transferred, drawn]
      cases w.inFlight[k]? with
      | none => rfl
      | some op => by_cases own : op.owner = j <;> simp [own]
  | _ => rfl

/-- What is poured is what the writes move. -/
theorem poured_stored {w : World}
    (run : Run next (fun w a => w.streams i .write a) (start loops) as w)
    (handle : ∀ o, w.owners[i]? = some o → o.kind = .handle) :
    observe next (poured i) (start loops) as =
      stored (observe next (stores i) (start loops) as) := by
  have placed := run_placed (.inr rfl) run handle
  have poured : observe next (poured i) (start loops) as =
      contents (observe next (stores i) (start loops) as) :=
    observe_derived (stores i) contents rfl contents_append (fun _ _ => rfl) (start loops) as
  have same : observe next (stores i) (start loops) as =
      extents (observe next (mail i) (start loops) as) :=
    observe_derived (mail i) extents rfl extents_append (stores_mail i) (start loops) as
  rw [poured, same, placed.positions.contiguous.stored]

end Pipes

/-- What the two ends of a pipe know: the writer's callers were told of the first bytes that
were written, of all of them when no write is under way, and the reader's callers got the
first of them, all but those still in the pipe when no read is under way. -/
structure PipedInOrder (written told pipe : List UInt8) (got : List (Option UInt8))
    (o p : Owner) : Prop where
  toldFirst : told <+: written
  gotFirst : got <+: written.map some
  toldAll : o.pc = .out → o.lockWord = 0 → told = written
  gotAll : p.pc = .out → p.lockWord = 0 → written.map some = got ++ pipe.map some

/-- The steps under which owner `i` writes to a pipe and owner `j` reads from it. -/
def usesPipe (i j : Nat) (w : World) (a : Action) : Bool := w.writesFile i a && w.fitsReads j a

theorem usesPipe_writes {i j : Nat} (w : World) (a : Action) (h : w.usesPipe i j a = true) :
    w.writesFile i a = true := by
  simp only [usesPipe, Bool.and_eq_true] at h
  exact h.1

theorem usesPipe_reads {i j : Nat} (w : World) (a : Action) (h : w.usesPipe i j a = true) :
    w.fitsReads j a = true := by
  simp only [usesPipe, Bool.and_eq_true] at h
  exact h.2

/-- Four bytes go through a pipe: they are written at once and read in two pieces, and the
first read was submitted before the write. -/
def ping : List Action :=
  [Schedule.handle, Schedule.handle] ++ Schedule.submitted 1 (.pollRead 4) 7 ++
    Schedule.submitted 0 (.pollWrite [112, 105, 110, 103]) 8 ++ [.complete 1 (.success 4 [])] ++
    [.complete 0 (.success 2 [112, 105])] ++ Schedule.drive 0 true ++ Schedule.drive 0 true ++
    Schedule.resume 0 (.pollWrite [112, 105, 110, 103]) 8 ++ Schedule.resume 1 (.pollRead 4) 7 ++
    Schedule.submitted 1 (.pollRead 2) 7 ++ [.complete 0 (.success 2 [110, 103])]

end World

end Iocp
