import Iocp.Link.LockWord
import Iocp.Port.Packets
import Iocp.Progress.Quiet

/-!
# Packets are served promptly

While the lock word of a header is that of the operation under way, a thread that unlocks
it succeeds at once, so a status takes a thread few steps, whatever everybody else does.
A packet in the queue is therefore taken after a number of steps of the threads that
depends on its position only.
-/

namespace Iocp

open Totals Transition

/-- A step of a thread. -/
def Action.isDriver : Action → Bool
  | driver _ _ => true
  | _ => false

/-- A thread never has more left of a status than the steps from its packet on. -/
theorem Driver.rank_le (t : Driver) : t.rank ≤ 7 := by
  have loop : t.loop.rank ≤ 2 := by cases t.loop <;> simp [Loop.rank]
  have pc : t.pc.rank ≤ 5 := by cases t.pc <;> simp [DriverPc.rank]
  rw [rank]
  omega

namespace Link

/-- A thread that unlocks the header has seen the word of the operation of its status. -/
def Expects (L : Link) : Prop :=
  ∀ k ∈ L.tokens, ∀ old release, k.stage = .unlocking old release → old = k.op.code.word

variable {i : Nat} {o o' : Owner} {k k' : Token} {T : Multiset Token} {L L' : Link} {l : Label}

/-- The word of a header is that of each operation under way. -/
theorem Sound.word_of_live (sound : (Link.mk o (k ::ₘ T)).Sound i) (live : k.stage.live = true) :
    o.lockWord = k.op.code.word := by
  rcases sound.single with none | ⟨u, single, word⟩
  · exact absurd none (live_ne_zero live)
  · rw [(single_live single live).1]
    exact word

/-- One token may be replaced by another one that expects the right word. -/
theorem Expects.replace (expects : (Link.mk o (k ::ₘ T)).Expects)
    (next : ∀ old release, k'.stage = .unlocking old release → old = k'.op.code.word) :
    (Link.mk o' (k' ::ₘ T)).Expects := by
  intro t member
  rcases Multiset.mem_cons.mp member with rfl | rest
  · exact next
  · exact expects t (Multiset.mem_cons_of_mem rest)

/-- After an atomic operation of `unlock` on a header with the word of the operation. -/
theorem afterUnlock_expects {u : UnlockStep} {c : Code} {release : Bool}
    (found : ∀ old, u = .retry old → old = c.word) (old : Int) (again : Bool)
    (stage : Stage.afterUnlock release u = .unlocking old again) : old = c.word := by
  cases u with
  | retry old' =>
      obtain ⟨rfl, -⟩ := Stage.unlocking.inj stage
      exact found _ rfl
  | returned unlocked => cases unlocked <;> cases release <;> cases stage

/-- Every step keeps what the threads that unlock have seen. -/
theorem Expects.step (expects : L.Expects) (sound : L.Sound i) (step : Step i L l L') :
    L'.Expects := by
  cases step with
  | @task o pending a o' e T acts =>
      intro t member old release stage
      rcases Multiset.mem_add.mp member with new | old'
      · cases submit : e.submit with
        | none => simp [Effect.tokens, submit] at new
        | some op =>
            simp only [Effect.tokens, submit, Multiset.mem_singleton] at new
            simp [new] at stage
      · exact expects t old' old release stage
  | load =>
      have word := sound.word_of_live rfl
      have pos := sound.word_pos (live_ne_zero rfl)
      refine expects.replace (afterUnlock_expects fun old again => ?_)
      rw [unlockLoad_pos pos] at again
      exact (UnlockStep.retry.inj again).symm.trans word
  | @exchange o op old release spurious T =>
      have word := sound.word_of_live rfl
      have pos := sound.word_pos (live_ne_zero rfl)
      refine expects.replace (afterUnlock_expects fun found again => ?_)
      rcases unlockExchange_pos pos old spurious with won | retry
      · simp [won] at again
      · rw [retry] at again
        exact (UnlockStep.retry.inj again).symm.trans word
  | drop => exact fun t member => expects t (Multiset.mem_cons_of_mem member)
  | _ => exact expects.replace (by simp)

end Link

namespace World

variable {ok : World → Action → Prop} {loops : List Loop} {w v : World} {a : Action}
  {d : Nat} {t u : Driver} {act : DriverAct}

/-- No weak exchange fails on a match, and no poll finds a completed word of another code. -/
def orderly (w : World) (a : Action) : Prop := a.exact = true ∧ w.sameCode a = true

instance (w : World) (a : Action) : Decidable (w.orderly a) :=
  inferInstanceAs (Decidable (_ ∧ _))

/-- Every thread that unlocks has seen the word of the header. -/
theorem reached_expects (reach : Reached orderly (start loops) w) :
    w.AllLinks fun i L => L.Sound i ∧ L.Expects := by
  refine reached_links reach ?_ ?_
  · intro i kind key size
    exact ⟨.inl ⟨rfl, rfl⟩, by simp [Link.Expects]⟩
  · rintro w a i o l L _ ⟨exact, same⟩ owner concerns step ⟨sound, expects⟩
    refine ⟨sound.step step ?_, expects.step sound step⟩
    rintro act rfl
    have keep := keepsWord_of_exact exact same
    rwa [concerns.task, keepsWord, ownerStep_task owner] at keep

/-- No round of `unlock` fails but for no reason. -/
theorem not_retries (reach : Reached orderly (start loops) w) (thread : w.drivers[d]? = some t) :
    ¬ w.Retries t act v u := by
  rintro ⟨s, old, release, op, o, pc, pointer, owner, other, -⟩
  obtain ⟨R, tokens, -⟩ := thread_tokens thread
  have held : w.tokensOf op.owner =
      ⟨op, .unlocking old release⟩ ::ₘ R.filter fun k => k.op.owner = op.owner := by
    rw [tokensOf, tokens, pc, DriverPc.tokens, Status.tokens_some pointer, Multiset.singleton_add]
    exact Multiset.filter_cons_of_pos R rfl
  obtain ⟨sound, expects⟩ := reached_expects reach op.owner o owner
  rw [held] at sound expects
  have seen : old = op.code.word := expects _ (Multiset.mem_cons_self _ _) old release rfl
  exact other ((sound.word_of_live rfl).trans seen.symm)

/-- Every step of a thread is paid for by what is left of its status and by the packets
that are taken. -/
theorem stepped_pays (reach : Reached orderly (start loops) w) (good : w.orderly a)
    (stepped : w.Stepped a v) :
    total Driver.rank v.drivers + (if a.isDriver then 1 else 0) ≤
      total Driver.rank w.drivers + 6 * (w.taken a).length := by
  cases stepped with
  | @driver d t act v thread driven =>
      have settles : (Action.driver d act).settles = true := by
        cases act <;> first | rfl | exact good.1
      obtain ⟨u, drivers, -, retries | ⟨-, lower⟩⟩ := driven_pays driven settles
      · exact absurd retries (not_retries reach thread)
      · have before := total_eraseIdx Driver.rank thread
        have after := total_set Driver.rank thread u
        have one : (if (Action.driver d act).isDriver then 1 else 0) = 1 := rfl
        rw [drivers, after, before, one]
        omega
  | _ => exact Nat.le_add_right _ _

/-- The threads take together at most 6 steps for each packet that they take, and 7 more
each. -/
theorem run_pays {as : List Action} (reach : Reached orderly (start loops) w)
    (run : Run next orderly w as v) :
    as.countP Action.isDriver ≤ 7 * w.drivers.length + 6 * (observe next taken w as).length := by
  have paid := run.paid (p := Action.isDriver) (c := 6) taken fun u a v before good h =>
    stepped_pays (reach.trans before) good (next_stepped h)
  have left : total Driver.rank w.drivers ≤ 7 * w.drivers.length :=
    total_le_mul fun t _ => t.rank_le
  omega

/-- The packet of a read and a message are in the queue. -/
def twoPackets : List Action :=
  Schedule.pendingRead ++ [.complete 0 (.success 4 [1, 2, 3, 4]), .post 3]

/-- The thread of `setup` serves both. -/
def twoServed : List Action :=
  Schedule.drive 0 true ++
    [.driver 0 (.dequeue false), .driver 0 .account, .driver 0 (.load true), .driver 0 .drop]

end World

end Iocp
