import Iocp.Link.View
import Iocp.Port.Counter

/-!
# What one owner adds to the pending counter

An owner is charged for the permits of its polls and for its operations whose
packet no poll of the port has returned. Everything else the counter stands for
belongs to the other owners, to users of the port or to messages.
-/

namespace Iocp

open Totals Transition

/-- No poll of the port has returned the packet. -/
def Stage.awaits : Stage → Bool
  | inFlight => true
  | queued _ => true
  | dequeued _ => true
  | _ => false

theorem countP_token (op : Op) (stage : Stage) :
    ({⟨op, stage⟩} : Multiset Token).countP (fun t => t.stage.awaits) =
      if stage.awaits then 1 else 0 := by
  rw [Multiset.countP_eq_card_filter, Multiset.filter_singleton]
  cases stage.awaits <;> rfl

namespace World

/-- The operations of a header that the counter still counts. -/
def awaitingOf (w : World) (i : Nat) : Nat := (w.tokensOf i).countP fun t => t.stage.awaits

/-- What the pending counter counts apart from owner `i`. -/
def elsewhere (w : World) (i : Nat) : Int :=
  w.tally.drained + (w.tokens.filter fun t => t.op.owner ≠ i).countP (fun t => t.stage.awaits) +
    total (fun o => o.pc.permits) (w.owners.eraseIdx i) +
    total (fun o => o.pc.failing) (w.owners.eraseIdx i) + w.held + w.undoing - w.tally.posts +
    w.tally.shutdowns * isizeMin

/-- The operations that await their packet are tokens. -/
theorem awaiting_tokens (w : World) :
    w.awaiting = w.tokens.countP fun t => t.stage.awaits := by
  have flights : total (fun op => ({⟨op, .inFlight⟩} : Multiset Token).countP
      fun t => t.stage.awaits) w.inFlight = w.inFlight.length := by
    generalize w.inFlight = ops
    induction ops with
    | nil => rfl
    | cons op ops ih =>
        rw [total_cons, ih, List.length_cons, Nat.add_comm]
        rfl
  have packets : (fun p : Packet => p.tokens.countP fun t => t.stage.awaits) =
      Packet.unaccounted := by
    funext p
    cases io : p.io with
    | none => simp [Packet.tokens, Packet.unaccounted, io]
    | some io' =>
        simp only [Packet.tokens, Packet.unaccounted, io, countP_token]
        rfl
  have threads : (fun t : Driver => t.pc.tokens.countP fun t => t.stage.awaits) =
      fun t => t.pc.unaccounted := by
    funext t
    cases t.pc with
    | ready => rfl
    | dequeued during s | status s | unlocking s old release | waking s | done s =>
        cases pointer : s.op with
        | none => simp [DriverPc.tokens, DriverPc.unaccounted, Status.tokens, pointer]
        | some op =>
            simp only [DriverPc.tokens, DriverPc.unaccounted, Status.tokens, pointer, countP_token]
            rfl
  simp only [tokens, Multiset.countP_add, countP_total, flights, packets, threads, awaiting]

/-- The counter is the share of an owner and everything else. -/
theorem pending_shares {w : World} {i : Nat} {o : Owner} (balanced : w.Balanced)
    (owner : w.owners[i]? = some o) :
    w.pending = isize (w.elsewhere i + w.awaitingOf i + o.pc.permits + o.pc.failing) := by
  have packets := balanced.packets
  have permits := total_eraseIdx (fun o : Owner => o.pc.permits) owner
  have failing := total_eraseIdx (fun o : Owner => o.pc.failing) owner
  have split : w.tokens.countP (fun t => t.stage.awaits) = w.awaitingOf i +
      (w.tokens.filter fun t => t.op.owner ≠ i).countP fun t => t.stage.awaits := by
    rw [awaitingOf, tokensOf, ← Multiset.countP_add, Multiset.filter_add_not]
  rw [awaiting_tokens, split] at packets
  rw [balanced.counter]
  apply congrArg isize
  simp only [ledger, World.permits, World.failing, permits, failing, elsewhere]
  generalize (w.tally.shutdowns : Int) * isizeMin = shut
  omega

end World

end Iocp
