import Iocp.Link.Collection

/-!
# Spurious failures of the weak exchanges

A weak exchange may fail although the word is the expected one. In `unlock`
this costs a round of the loop. In `header_lock` a busy or a completed word is
treated alike whether the exchange was spurious or not, but an open word is
then taken for a completed one: the guard is granted on a word that stays zero.
-/

namespace Iocp

open Totals Transition Mailbox

/-- No exchange of `header_lock` of owner `i` and no exchange of `unlock` fails
without a mismatch. -/
def Action.exactAt (i : Nat) : Action → Bool
  | .task j (.lock spurious) => j ≠ i || !spurious
  | .driver _ (.exchange spurious) => !spurious
  | _ => true

/-- The action with these exchanges made exact. -/
def Action.precise (i : Nat) : Action → Action
  | .task j (.lock spurious) => .task j (.lock (j ≠ i && spurious))
  | .driver d (.exchange _) => .driver d (.exchange false)
  | a => a

theorem Action.precise_exactAt (i : Nat) (a : Action) : (a.precise i).exactAt i = true := by
  cases a with
  | task j act =>
      cases act with
      | lock spurious => by_cases hj : j = i <;> simp [precise, exactAt, hj]
      | _ => rfl
  | driver d act => cases act <;> rfl
  | _ => rfl

/-- `header_lock` run to its end without another thread in between. -/
def Header.headerLockAlone (h : Header) (code : Code) (spurious : Bool) : Header × LockResult :=
  match h.headerLock code spurious with
  | (h, .returned result) => (h, result)
  | (h, .store n) =>
      let next := h.headerLockStore code n
      (next.1, .ok next.2)

/-- On an open word `header_lock` grants a guard, and it leaves the word of its
code unless the exchange failed. -/
theorem Header.headerLockAlone_open {h : Header} (code : Code) (spurious : Bool)
    (word : h.lock = 0) :
    (h.headerLockAlone code spurious).2 = .ok .idle ∧
      ((h.headerLockAlone code spurious).1.lock = code.word ↔ spurious = false) := by
  have pos := code.word_pos
  cases spurious with
  | false => simp [headerLockAlone, headerLock_open word]
  | true =>
      have store : h.headerLock code true = (h, .store h.lock) :=
        headerLock_store (by omega) fun _ => rfl
      have unequal : code.word ≠ 0 := by omega
      simp [headerLockAlone, store, headerLockStore, word, unequal, unequal.symm]

/-- A thread in the loop of `unlock` has seen a positive word. -/
def Driver.Sees (t : Driver) : Prop := ∀ s old release, t.pc = .unlocking s old release → 0 < old

theorem Driver.unlocked_sees (t : Driver) (s : Status) (release : Bool) {u : UnlockStep}
    (positive : ∀ old, u = .retry old → 0 < old) : (t.unlocked s release u).Sees := by
  intro s' old release' pc
  cases u with
  | retry old' =>
      simp only [unlocked, DriverPc.unlocking.injEq] at pc
      exact pc.2.1 ▸ positive old' rfl
  | returned unlocked =>
      cases unlocked <;> cases release <;> simp [Driver.unlocked, processed] at pc

theorem Header.unlockTest_retry {n old : Int} (h : unlockTest n = .retry old) : 0 < old := by
  simp only [unlockTest] at h
  split at h
  case isTrue pos => exact UnlockStep.retry.inj h ▸ pos
  case isFalse => cases h

theorem Header.unlockExchange_retry {h : Header} {seen old : Int} {spurious : Bool}
    (retry : (h.unlockExchange seen spurious).2 = .retry old) : 0 < old := by
  simp only [unlockExchange] at retry
  split at retry
  · cases retry
  · exact unlockTest_retry retry

namespace World

section Sees

variable {w v : World} {d : Nat} {t : Driver} {a : DriverAct}

theorem set_sees {u : Driver} (sees : ∀ t ∈ w.drivers, t.Sees) (here : u.Sees)
    (drivers : v.drivers = w.drivers.set d u) : ∀ t ∈ v.drivers, t.Sees := by
  intro t member
  rcases List.mem_or_eq_of_mem_set (drivers ▸ member) with old | rfl
  · exact sees t old
  · exact here

theorem driven_sees (sees : ∀ t ∈ w.drivers, t.Sees) (driven : w.Driven d t a v) :
    ∀ t ∈ v.drivers, t.Sees := by
  have away {u : Driver} (pc : ∀ s old release, u.pc ≠ .unlocking s old release) : u.Sees :=
    fun s old release h => absurd h (pc s old release)
  cases driven with
  | dequeue => exact set_sees sees (away (by simp)) rfl
  | @poll s =>
      refine set_sees sees (away ?_) rfl
      rcases s.poll_cases w.pending with ⟨-, h⟩ | ⟨-, h⟩ | ⟨-, -, h⟩ <;>
        simp [h, Driver.polled]
  | @pollDuringShutdown s =>
      refine set_sees sees (away ?_) rfl
      rcases s.pollDuringShutdown_cases with ⟨-, h⟩ | ⟨-, h⟩ | ⟨-, -, h⟩ <;>
        simp [h, Driver.drained]
  | loadNull => exact set_sees sees (away (by simp [Driver.processed])) rfl
  | load =>
      exact set_sees sees (t.unlocked_sees _ _ fun _ => Header.unlockTest_retry) rfl
  | exchange =>
      exact set_sees sees (t.unlocked_sees _ _ fun _ => Header.unlockExchange_retry) rfl
  | wake => exact set_sees sees (away (by simp [Driver.processed])) rfl
  | skip => exact set_sees sees (away (by simp)) rfl
  | dropNull => exact set_sees sees (away (by simp)) rfl
  | drop => exact set_sees sees (away (by simp)) rfl
  | finish pc => exact set_sees sees (away (by simp [pc])) rfl

theorem run_sees {ok : World → Action → Prop} {loops : List Loop} {as : List Action}
    (run : Run next ok (start loops) as w) : ∀ t ∈ w.drivers, t.Sees := by
  refine run.invariant (P := fun w => ∀ t ∈ w.drivers, t.Sees) ?_ ?_
  · intro t member s old release pc
    obtain ⟨loop, -, rfl⟩ := List.mem_map.mp member
    cases pc
  · intro w a v sees _ h
    cases next_stepped h with
    | driver thread driven => exact driven_sees sees driven
    | _ => exact sees

end Sees

/-- The exchange of `unlock` fails on the word it expects. -/
def retries (w : World) : Action → Bool
  | .driver d (.exchange spurious) =>
      spurious && (w.unlocking d).any fun (op, old, _) =>
        w.owners[op.owner]?.any fun o => o.lockWord = old
  | _ => false

/-- What is left of an action without the spurious failures. -/
def precise (i : Nat) (w : World) (a : Action) : List Action :=
  if w.retries a then [] else [a.precise i]

section Precise

variable {w v : World} {i d : Nat} {t : Driver}

/-- An exchange of `unlock` that is enabled works on the header of its status. -/
theorem exchange_finds {spurious : Bool} (h : w.step (.driver d (.exchange spurious)) = some v) :
    ∃ t s old release op o, w.drivers[d]? = some t ∧ t.pc = .unlocking s old release ∧
      s.op = some op ∧ w.owners[op.owner]? = some o ∧ w.unlocking d = some (op, old, release) := by
  cases step_stepped h with
  | @driver _ t _ _ thread driven =>
      cases driven with
      | @exchange s old release _ op o pc pointer owner =>
          exact ⟨t, s, old, release, op, o, thread, pc, pointer, owner,
            by simp [unlocking, thread, Driver.unlocking, pc, pointer]⟩

/-- A failure on the expected word changes nothing: the loop goes round with the
word it had seen. -/
theorem retries_still (sees : ∀ t ∈ w.drivers, t.Sees) {spurious : Bool}
    (h : w.step (.driver d (.exchange spurious)) = some v)
    (retries : w.retries (.driver d (.exchange spurious)) = true) :
    v = w ∧ ∀ j, w.mail j (.driver d (.exchange spurious)) = [] := by
  obtain ⟨t, s, old, release, op, o, thread, pc, pointer, owner, unlocking⟩ := exchange_finds h
  simp only [World.retries, unlocking, Option.any_some, owner, Bool.and_eq_true,
    decide_eq_true_eq] at retries
  obtain ⟨rfl, word⟩ := retries
  have seen : 0 < old := sees t (List.mem_of_getElem? thread) s old release pc
  have round : o.header.value.unlockExchange old true = (o.header.value, .retry old) := by
    have hlock : o.header.value.lock = old := word
    simp [Header.unlockExchange, Header.compareExchangeWeak, Header.unlockTest, hlock, seen]
  constructor
  · have owners : w.owners.set op.owner o = w.owners := by
      obtain ⟨hlt, rfl⟩ := List.getElem?_eq_some_iff.mp owner
      exact List.set_getElem_self hlt
    have drivers : w.drivers.set d { t with pc := .unlocking s old release } = w.drivers := by
      obtain ⟨hlt, rfl⟩ := List.getElem?_eq_some_iff.mp thread
      rw [← pc]
      exact List.set_getElem_self hlt
    simp only [step, driver, thread, exchange, pc, pointer, owner, round, Driver.unlocked,
      Option.some.injEq] at h
    rw [← h, drivers]
    exact congrArg (fun l => { w with owners := l }) owners
  · intro j
    by_cases own : op.owner = j
    · subst own
      rw [mail_exchange unlocking rfl owner, round]
      rfl
    · apply mail_silent
      intro op' old' release' unlocking'
      rw [unlocking] at unlocking'
      cases unlocking'
      exact own

/-- A failure on another word is the failure of an exact exchange. -/
theorem unlockExchange_exact {h : Header} {old : Int} {spurious : Bool}
    (mismatch : spurious = true → h.lock ≠ old) :
    h.unlockExchange old spurious = h.unlockExchange old false := by
  cases spurious with
  | false => rfl
  | true => simp [Header.unlockExchange, Header.compareExchangeWeak, mismatch rfl]

theorem exchange_exact {spurious : Bool} (h : w.step (.driver d (.exchange spurious)) = some v)
    (exact : w.retries (.driver d (.exchange spurious)) = false) :
    w.step (.driver d (.exchange false)) = some v ∧
      ∀ j, w.mail j (.driver d (.exchange false)) = w.mail j (.driver d (.exchange spurious)) := by
  obtain ⟨t, s, old, release, op, o, thread, pc, pointer, owner, unlocking⟩ := exchange_finds h
  have same : o.header.value.unlockExchange old spurious =
      o.header.value.unlockExchange old false := by
    apply unlockExchange_exact
    rintro rfl
    have mismatch : o.lockWord ≠ old := by simpa [retries, unlocking, owner] using exact
    exact mismatch
  constructor
  · simp only [step, driver, thread, exchange, pc, pointer, owner, same] at h ⊢
    exact h
  · intro j
    by_cases own : op.owner = j
    · subst own
      rw [mail_exchange unlocking rfl owner, mail_exchange unlocking rfl owner, same]
    · have silent (b : Bool) : w.Silent j (.driver d (.exchange b)) := by
        intro op' old' release' unlocking'
        rw [unlocking] at unlocking'
        cases unlocking'
        exact own
      rw [mail_silent (silent _), mail_silent (silent _)]

/-- A failure of `header_lock` on a word that is not open is that of an exact exchange. -/
theorem headerLock_exact {h : Header} {code : Code} {spurious : Bool}
    (closed : spurious = true → h.lock ≠ 0) :
    h.headerLock code spurious = h.headerLock code false := by
  cases spurious with
  | false => rfl
  | true => simp [Header.headerLock, Header.compareExchangeWeak, closed rfl]

theorem lock_exact {spurious : Bool} (steady : w.steady i (.task i (.lock spurious)) = true) :
    w.step (.task i (.lock spurious)) = w.step (.task i (.lock false)) := by
  cases owner : w.owners[i]? with
  | none => simp [step, task, owner]
  | some o =>
      have same (code : Code) : o.header.value.headerLock code spurious =
          o.header.value.headerLock code false := by
        apply headerLock_exact
        rintro rfl
        have closed : o.lockWord ≠ 0 := by simpa [World.steady, owner] using steady
        exact closed
      simp only [step, task, owner, Owner.act, Owner.lock, same]

/-- What is left of a step leads to the same state, and is the same for every mailbox. -/
theorem precise_run {a : Action} (sees : ∀ t ∈ w.drivers, t.Sees)
    (steady : w.steady i a = true) (h : w.next a = some v) :
    Run next (fun _ a => a.exactAt i) w (w.precise i a) v ∧
      ∀ j, observe next (mail j) w (w.precise i a) = w.mail j a := by
  obtain ⟨hstep, bound⟩ := next_eq_some.mp h
  have one {b : Action} (left : w.precise i a = [b]) (exact : b.exactAt i = true)
      (same : w.step b = some v) (mail : ∀ j, w.mail j b = w.mail j a) :
      Run next (fun _ a => a.exactAt i) w (w.precise i a) v ∧
        ∀ j, observe next (World.mail j) w (w.precise i a) = w.mail j a := by
    have hb : w.next b = some v := next_eq_some.mpr ⟨same, bound⟩
    rw [left]
    refine ⟨.single exact hb, fun j => ?_⟩
    rw [observe, hb, Option.elim_some, observe, List.append_nil, mail j]
  cases a with
  | task j act =>
      refine one rfl (Action.precise_exactAt i _) ?_ ?_
      · cases act with
        | lock spurious =>
            by_cases hj : j = i
            · subst hj
              rw [lock_exact steady] at hstep
              simpa [Action.precise] using hstep
            · simpa [Action.precise, hj] using hstep
        | _ => exact hstep
      · intro k
        cases act <;> rfl
  | driver d act =>
      cases act with
      | exchange spurious =>
          cases retries : w.retries (.driver d (.exchange spurious)) with
          | true =>
              obtain ⟨rfl, mail⟩ := retries_still sees hstep retries
              rw [precise, if_pos retries]
              exact ⟨.nil, fun j => (mail j).symm⟩
          | false =>
              obtain ⟨same, mail⟩ := exchange_exact hstep retries
              exact one (by simp [precise, retries, Action.precise]) rfl same mail
      | _ => exact one rfl rfl hstep fun _ => rfl
  | _ => exact one rfl rfl hstep fun _ => rfl

/-- What is left of a list of actions is part of it, with exact exchanges. -/
theorem observe_precise (i : Nat) (w : World) (as : List Action) :
    (observe next (precise i) w as).Sublist (as.map (Action.precise i)) := by
  induction as generalizing w with
  | nil => exact List.Sublist.refl []
  | cons a as ih =>
      have first : (w.precise i a).Sublist [a.precise i] := by
        rw [precise]
        split
        · exact List.nil_sublist _
        · exact List.Sublist.refl _
      have rest : ((w.next a).elim [] fun v => observe next (precise i) v as).Sublist
          (as.map (Action.precise i)) := by
        cases w.next a with
        | none => exact List.nil_sublist _
        | some v => exact ih v
      exact first.append rest

end Precise

/-- A run without spurious failures at the header of owner `i` leads to the same
state. It takes the same steps but for some rounds of `unlock`, and every
mailbox sees the same of it. -/
def Simulated (i : Nat) (loops : List Loop) (as : List Action) (w : World) : Prop :=
  ∃ bs : List Action, bs.Sublist (as.map (Action.precise i)) ∧
    Run next (fun _ a => a.exactAt i) (start loops) bs w ∧
    ∀ j, observe next (mail j) (start loops) bs = observe next (mail j) (start loops) as

section Run

variable {i : Nat} {loops : List Loop} {as : List Action} {w v : World}

/-- A run whose exchanges of `header_lock` do not fail on an open word is
simulated by what is left of it without its spurious failures. -/
theorem simulated_of_steady (run : Run next (fun w a => w.steady i a) (start loops) as w) :
    Simulated i loops as w := by
  suffices left : Run next (fun _ a => a.exactAt i) (start loops)
      (observe next (precise i) (start loops) as) w ∧
      ∀ j, observe next (mail j) (start loops) (observe next (precise i) (start loops) as) =
        observe next (mail j) (start loops) as by
    exact ⟨_, observe_precise i _ as, left⟩
  induction run with
  | nil => exact ⟨.nil, fun j => rfl⟩
  | @snoc as w a v before good h ih =>
      obtain ⟨run, mails⟩ := ih
      obtain ⟨left, mail⟩ := precise_run (run_sees before) good h
      rw [before.observe_snoc]
      refine ⟨run.append left, fun j => ?_⟩
      rw [run.observe_append, before.observe_snoc, mails j, mail j]

/-- Exact exchanges of `header_lock` never store over an open word. -/
theorem exact_storing (reach : Reached (fun _ a => a.exactAt i) (start loops) w) {o : Owner}
    (owner : w.owners[i]? = some o) (call : Call) : o.pc ≠ .storing call 0 := by
  refine reached_links (P := fun j L => j = i → L.owner.pc ≠ .storing call 0) reach ?_ ?_
    i o owner rfl
  · intro j kind key size _
    simp [Owner.new]
  · rintro w a j o l L _ good - concerns step before rfl
    rcases step.task_or_other with ⟨pending, act, o', e, rfl, acts, rfl⟩ | other
    · obtain rfl := concerns.task
      cases acts with
      | lockStore pc word failed =>
          intro stored
          simp only [Pc.storing.injEq] at stored
          obtain rfl := failed stored.2
          simp [Action.exactAt] at good
      | _ => simp
    · rw [Link.background_pc step other]
      exact before rfl

/-- A failure on the open word leads to a state of no exact run. -/
theorem not_simulated {a : Action} (h : w.next a = some v) (failed : w.steady i a = false) :
    ¬ Simulated i loops (as ++ [a]) v := by
  rintro ⟨bs, -, exact, -⟩
  cases a with
  | task j act =>
      cases act with
      | lock spurious =>
          cases owner : w.owners[j]? with
          | none =>
              cases next_stepped h with
              | task owner' => simp [owner] at owner'
          | some o =>
              simp only [steady, owner, Option.all_some, Bool.or_eq_false_iff,
                decide_eq_false_iff_not, Decidable.not_not, Bool.not_eq_false'] at failed
              obtain ⟨⟨rfl, rfl⟩, word⟩ := failed
              obtain ⟨o', e, acts, rfl⟩ := step_task owner (next_eq_some.mp h).1
              cases acts with
              | lockBusy pc found => omega
              | @lockStore call _ pc found =>
                  exact exact_storing ⟨bs, exact⟩ (afterTask_owner owner _ _) call
                    (congrArg (Pc.storing call) word)
      | _ => cases failed
  | _ => cases failed

end Run

/-- The beginnings of a run are all simulated exactly when no exchange of
`header_lock` fails on an open word, and on such a word `header_lock` grants a
guard that leaves the word of its code exactly when the exchange does not fail. -/
theorem spurious_failures_invisible {i : Nat} {loops : List Loop} {as : List Action} {w : World}
    (run : Run next anyStep (start loops) as w) :
    ((∀ cs v, cs <+: as → Run next anyStep (start loops) cs v → Simulated i loops cs v) ↔
        Run next (fun w a => w.steady i a) (start loops) as w) ∧
      ∀ (h : Header) code spurious, h.lock = 0 →
        (h.headerLockAlone code spurious).2 = .ok .idle ∧
          ((h.headerLockAlone code spurious).1.lock = code.word ↔ spurious = false) := by
  refine ⟨⟨?_, ?_⟩, fun h code spurious => Header.headerLockAlone_open code spurious⟩
  · intro simulated
    induction run with
    | nil => exact .nil
    | @snoc as w a v before _ h ih =>
        refine (ih fun cs v first => simulated cs v (first.trans (List.prefix_append as [a]))).snoc
          ?_ h
        by_contra failed
        exact not_simulated h (Bool.eq_false_iff.mpr failed)
          (simulated _ v (List.prefix_refl _) (before.snoc trivial h))
  · rintro steady cs v ⟨ds, rfl⟩ run'
    obtain ⟨u, first, -⟩ := steady.split
    obtain rfl := run'.state_unique first
    exact simulated_of_steady first

/-- The first exchange of `unlock` fails on the word of a completed read. -/
def retriedUnlock : List Action :=
  Schedule.pendingRead ++ [.complete 0 (.success 4 [1, 2, 3, 4]), .driver 0 (.dequeue false),
    .driver 0 .account, .driver 0 (.load true), .driver 0 (.exchange true),
    .driver 0 (.exchange false), .driver 0 .wake, .driver 0 .drop]

theorem spurious_failures_invisible_retried :
    ∃ w, Run next anyStep setup retriedUnlock w ∧ Simulated 0 [.main] retriedUnlock w := by
  have executed : (exec next (fun w a => w.steady 0 a) setup retriedUnlock).isSome = true := by
    decide
  obtain ⟨w, hw⟩ := Option.isSome_iff_exists.mp executed
  have steady : Run next (fun w a => w.steady 0 a) setup retriedUnlock w := exec_run hw
  have run : Run next anyStep setup retriedUnlock w := steady.weaken fun _ _ _ => trivial
  exact ⟨w, run, (spurious_failures_invisible run).1.mpr steady _ w (List.prefix_refl _) run⟩

/-- The first exchange of `header_lock` fails on the open word of a fresh handle. -/
def grantedOpen : List Action :=
  [Schedule.handle, .task 0 (.poll (.pollRead 8) 1), .task 0 .registerWaker, .task 0 (.lock true),
    .task 0 .storeOpen] ++ Schedule.submit 0 ++ [.task 0 .forget] ++
    Schedule.submitted 0 (.pollRead 8) 1

/-- After a spurious failure on the open word a second read is submitted while
the first is under way, which no run without spurious failures does. -/
theorem open_word_failure_visible :
    (¬ ∀ as w, Run next (fun w a => w.oneCode 0 .read a) setup as w →
      ∃ bs v, Run next (fun w a => a.exact ∧ w.oneCode 0 .read a) setup bs v ∧
        submissions (observe next (mail 0) setup bs) =
          submissions (observe next (mail 0) setup as) ∧
        collections (observe next (mail 0) setup bs) =
          collections (observe next (mail 0) setup as)) ∧
      ¬ ∀ (h : Header) code spurious, h.lock = 0 →
        (h.headerLockAlone code spurious).2 = .ok .idle →
        (h.headerLockAlone code spurious).1.lock = code.word := by
  constructor
  · intro always
    obtain ⟨w, run, seen⟩ :=
      exec_seen (fun w a => w.oneCode 0 .read a) setup grantedOpen (mail 0)
        (fun _ es => ((submissions es).length, (collections es).length)) (2, 0) (by decide)
    simp only [Prod.mk.injEq] at seen
    obtain ⟨bs, v, exact, submitted, collected⟩ := always grantedOpen w run
    obtain ⟨m, mailbox, -⟩ :=
      run_mailbox (fun w a h => steady_of_exact 0 h.1) (fun w a h => h.2) exact
    have alone : (submissions (observe next (mail 0) setup bs)).length ≤
        (collections (observe next (mail 0) setup bs)).length + 1 := (run_in_order mailbox).2.2
    rw [submitted, collected, seen.1, seen.2] at alone
    omega
  · intro always
    have granted := Header.headerLockAlone_open (h := Header.new) .read true rfl
    have exact := granted.2.mp (always Header.new .read true rfl granted.1)
    cases exact

end World

end Iocp
