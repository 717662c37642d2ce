import Iocp.Link.Interference
import Iocp.Link.References

/-!
# What a failed poll leaves behind

An early return of a poll drops the `Overlapped`, the guard and the permit, as far as
it has got. A step of a poll leaves a footprint on the pending counter and on the
strong count of the header, and the footprints of a poll that fails add up to nothing.
-/

namespace Iocp

open Transition

/-- The poll returns an error or panics. -/
def PollResult.fails : PollResult → Bool
  | .failed _ => true
  | .panicked => true
  | _ => false

namespace Footprint

/-- What the step adds to the pending counter. -/
def counter (f : Footprint) : Int := f.effect.add

/-- What the step adds to the strong count of the header. -/
def references (f : Footprint) : Int := f.after.header.strong - f.before.header.strong

/-- The step does not touch the header and the pools. -/
structure Untouched (f : Footprint) : Prop where
  header : f.after.header = f.before.header
  pool : f.after.pool = f.before.pool
  sockets : f.after.sockets = f.before.sockets

end Footprint

/-- What a number of steps add up to. -/
structure Nets (fs : List Footprint) (counter references : Int) : Prop where
  counter : (fs.map Footprint.counter).sum = counter
  references : (fs.map Footprint.references).sum = references

theorem Nets.snoc {fs : List Footprint} {n m : Int} (nets : Nets fs n m) (f : Footprint)
    {n' m' : Int} (counter : f.counter = n' - n) (references : f.references = m' - m) :
    Nets (fs ++ [f]) n' m' := by
  constructor
  · rw [List.map_append, List.sum_append, nets.counter, List.map_singleton, List.sum_singleton,
      counter]
    omega
  · rw [List.map_append, List.sum_append, nets.references, List.map_singleton, List.sum_singleton,
      references]
    omega

/-- A step that moves neither of them. -/
theorem Nets.still {fs : List Footprint} {n m : Int} (nets : Nets fs n m) (f : Footprint)
    (add : f.effect.add = 0) (strong : f.after.header.strong = f.before.header.strong) :
    Nets (fs ++ [f]) n m := by
  apply nets.snoc
  · rw [Footprint.counter, add, Int.sub_self]
  · rw [Footprint.references, strong, Int.sub_self, Int.sub_self]

namespace World

/-- A poll of owner `i` has not returned. -/
def polling (i : Nat) (w : World) : Bool := w.owners[i]?.any fun o => o.pc ≠ .out

theorem polling_owner {i : Nat} {w : World} {o : Owner} (owner : w.owners[i]? = some o) :
    w.polling i = true ↔ o.pc ≠ .out := by
  simp [polling, owner]

/-- One poll of owner `i` from its call to its return, among the steps of the others. -/
inductive PollsAmong (i : Nat) (w : World) : List Action → World → Prop
  | intro {call waker u as v} (called : w.next (.task i (.poll call waker)) = some u)
      (run : Run next (fun w _ => w.polling i) u as v) (returned : ¬ v.polling i) :
      PollsAmong i w (.task i (.poll call waker) :: as) v

end World

namespace Owner

/-- A handle that was cleaned up: open, with an empty pool and the cursor it had. -/
structure Restored (cursor : Nat) (o : Owner) : Prop where
  word : o.lockWord = 0
  taken : o.pool.taken = 0
  released : o.pool.released = 0
  cursor : o.header.value.raw.cursor = cursor

/-- What a poll owes at a program point: the permit, an `Overlapped` that is live,
and, if it fails, the cursor that the handle had when it was called. A poll whose
permit is refused touches nothing. -/
def Owes (refused : Prop) (cursor : Nat) (o : Owner) (fs : List Footprint) : Prop :=
  match o.pc with
  | .permitFailed => refused ∧ (∀ f ∈ fs, f.Untouched) ∧ Nets fs 1 0
  | .permitted _ _ => ¬ refused ∧ o.header.value.raw.cursor = cursor ∧ Nets fs 1 0
  | .registered _ => ¬ refused ∧ o.header.value.raw.cursor = cursor ∧ Nets fs 1 0
  | .storing _ _ => ¬ refused ∧ o.header.value.raw.cursor = cursor ∧ Nets fs 1 0
  | .guarded _ _ => ¬ refused ∧ o.header.value.raw.cursor = cursor ∧ Nets fs 1 0
  | .prepared _ _ => ¬ refused ∧ o.header.value.raw.cursor = cursor ∧ Nets fs 1 1
  | .dropOverlapped _ => ¬ refused ∧ o.header.value.raw.cursor = cursor ∧ Nets fs 1 1
  | .dropGuard result =>
      ¬ refused ∧ (result.fails = true → o.header.value.raw.cursor = cursor) ∧ Nets fs 1 0
  | .dropPermit result => ¬ refused ∧ (result.fails = true → o.Restored cursor) ∧ Nets fs 1 0
  | .out =>
      (∃ result, o.last = some result ∧ result.fails = true) →
        (refused → ∀ f ∈ fs, f.Untouched) ∧ (¬ refused → o.Restored cursor) ∧ Nets fs 0 0
  | .busy _ _ _ => ¬ refused ∧ Nets fs 1 0
  | .accepted _ => True
  | _ => False

section Owes

variable {i : Nat} {o o' : Owner} {refused : Prop} {cursor : Nat} {fs : List Footprint}
  {pending : Int} {a : TaskAct} {e : Effect}

theorem Restored.drifts (restored : o.Restored cursor) (drifts : o.Drifts o') :
    o'.Restored cursor where
  word := drifts.opened restored.word
  taken := drifts.indices.1.trans restored.taken
  released := drifts.indices.2.trans restored.released
  cursor := drifts.cursor.trans restored.cursor

/-- The steps of the others leave no footprint. -/
theorem Owes.drifts (owes : o.Owes refused cursor fs) (drifts : o.Drifts o') :
    o'.Owes refused cursor fs := by
  unfold Owes at owes ⊢
  rw [drifts.pc]
  cases pc : o.pc with
  | out =>
      simp only [pc] at owes ⊢
      rw [drifts.last]
      intro failed
      obtain ⟨untouched, restored, nets⟩ := owes failed
      exact ⟨untouched, fun granted => (restored granted).drifts drifts, nets⟩
  | dropPermit result =>
      simp only [pc] at owes ⊢
      obtain ⟨granted, restored, nets⟩ := owes
      exact ⟨granted, fun failed => (restored failed).drifts drifts, nets⟩
  | accepted call => trivial
  | dropping state | dropFields | dropped => simp only [pc] at owes
  | _ => simpa only [pc, drifts.cursor] using owes

/-- A guard is only dropped with a new cursor when it has collected a result. -/
theorem Owes.collect {duplicate : Option Nat} (owes : o.Owes refused cursor fs)
    (h : o.collect duplicate = some (o', e)) :
    o'.Owes refused cursor (fs ++ [⟨o, o', e⟩]) := by
  obtain ⟨rfl, call, pc, collects⟩ := collect_collects h
  simp only [Owes, pc] at owes
  obtain ⟨granted, same, nets⟩ := owes
  cases collects with
  | ready found made applied =>
      exact ⟨granted, by simp [PollResult.fails], nets.still _ rfl rfl⟩
  | _ => exact ⟨granted, fun _ => same, nets.still _ rfl rfl⟩

/-- Every step of a poll pays what it owes. -/
theorem Owes.task (owes : o.Owes refused cursor fs) (polling : o.pc ≠ .out)
    (kind : o.kind = .handle) (held : o.alive = true → 0 < o.header.strong)
    (h : o.act i pending a = some (o', e)) :
    o'.Owes refused cursor (fs ++ [⟨o, o', e⟩]) := by
  unfold Owes at owes
  cases act_acts h with
  | permit pc | refusePermit pc | drop pc => exact absurd pc polling
  | leaveDrop pc | dropFields pc =>
      simp only [pc] at owes
  | collect pc =>
      exact Owes.collect (by simpa only [Owes] using owes) h
  | dropGuardPanic pc socket =>
      rw [kind] at socket
      cases socket
  | undoPermit pc =>
      simp only [pc] at owes
      obtain ⟨denied, untouched, nets⟩ := owes
      intro failed
      refine ⟨fun _ f member => ?_, fun granted => absurd denied granted,
        nets.snoc _ rfl (by simp [Footprint.references])⟩
      rcases List.mem_append.mp member with earlier | last
      · exact untouched f earlier
      · rw [List.mem_singleton.mp last]
        exact ⟨rfl, rfl, rfl⟩
  | registerWaker pc | lockOpen pc | lockStore pc | storeOpen pc | refuseSubmit pc =>
      simp only [pc] at owes
      obtain ⟨granted, same, nets⟩ := owes
      exact ⟨granted, same, nets.still _ rfl rfl⟩
  | lockBusy pc =>
      simp only [pc] at owes
      obtain ⟨granted, -, nets⟩ := owes
      exact ⟨granted, nets.still _ rfl rfl⟩
  | leaveBusy pc =>
      simp only [pc] at owes
      obtain ⟨granted, nets⟩ := owes
      exact ⟨granted, by simp [PollResult.fails], nets.still _ rfl rfl⟩
  | prepareRequest pc | prepareFail pc =>
      simp only [pc] at owes
      obtain ⟨granted, same, nets⟩ := owes
      exact ⟨granted, same, nets.snoc _ rfl (by simp [Footprint.references, Arc.clone])⟩
  | submit pc accepted => trivial
  | forget pc =>
      rintro ⟨result, returned, failed⟩
      cases returned
      cases failed
  | dropOverlapped pc =>
      simp only [pc] at owes
      obtain ⟨granted, same, nets⟩ := owes
      have pos : 0 < o.header.strong := held (by simp [alive, pc])
      refine ⟨granted, fun _ => same, nets.snoc _ rfl ?_⟩
      simp only [Footprint.references, Arc.drop]
      omega
  | dropGuard pc =>
      simp only [pc] at owes
      obtain ⟨granted, same, nets⟩ := owes
      exact ⟨granted, fun failed => ⟨rfl, rfl, rfl, same failed⟩,
        nets.still _ rfl rfl⟩
  | dropPermit pc =>
      simp only [pc] at owes
      obtain ⟨granted, restored, nets⟩ := owes
      rintro ⟨result, returned, failed⟩
      cases returned
      have clean := restored failed
      exact ⟨fun denied => absurd denied granted,
        fun _ => ⟨clean.word, clean.taken, clean.released, clean.cursor⟩,
        nets.snoc _ rfl (by simp [Footprint.references])⟩

end Owes

end Owner

namespace World

variable {loops : List Loop} {w u v : World} {i : Nat} {o o' : Owner} {as : List Action}

/-- The header of an owner that was not dropped is not freed. -/
theorem strong_pos (reach : Reached anyStep (start loops) w) (owner : w.owners[i]? = some o)
    (alive : o.alive = true) : 0 < o.header.strong := by
  have strong := (reached_counted reach i o owner).strong
  simp only [alive, if_true] at strong
  omega

/-- The call of a poll adds to the pending counter, and whether that was refused
shows in the program point. -/
theorem called_owes {call : Call} {waker : Nat} (owner : w.owners[i]? = some o)
    (called : w.next (.task i (.poll call waker)) = some u) :
    ∃ o', u.owners[i]? = some o' ∧ o'.kind = o.kind ∧
      o'.Owes (w.pending < 0) o.header.value.raw.cursor
        (w.footprints i (.task i (.poll call waker))) := by
  obtain ⟨o', e, h, rfl⟩ := step_act owner (next_eq_some.mp called).1
  refine ⟨o', afterTask_owner owner o' e, ?_⟩
  rw [footprints_task owner h]
  have one (o' : Owner) (strong : o'.header.strong = o.header.strong) :
      Nets [⟨o, o', { add := 1 }⟩] 1 0 :=
    ⟨rfl, by simp [Footprint.references, strong]⟩
  cases Owner.act_acts h with
  | permit pc kind granted => exact ⟨rfl, by omega, rfl, one _ rfl⟩
  | refusePermit pc kind refused =>
      refine ⟨rfl, refused, ?_, one _ rfl⟩
      intro f member
      rw [List.mem_singleton.mp member]
      exact ⟨rfl, rfl, rfl⟩

/-- What a poll owes all the way to its return. -/
theorem polls_owes (reach : Reached anyStep (start loops) w) (owner : w.owners[i]? = some o)
    (handle : o.kind = .handle) (polls : w.PollsAmong i as v) (owner' : v.owners[i]? = some o') :
    o'.pc = .out ∧
      o'.Owes (w.pending < 0) o.header.value.raw.cursor (observe next (footprints i) w as) := by
  obtain @⟨call, waker, u, as, v, called, run, returned⟩ := polls
  obtain ⟨o₁, owner₁, kind₁, owes₁⟩ := called_owes owner called
  rw [observe, called, Option.elim_some]
  refine ⟨?_, (run_footprints (Q := fun o' fs => o'.kind = .handle ∧
    o'.Owes (w.pending < 0) o.header.value.raw.cursor
      (w.footprints i (.task i (.poll call waker)) ++ fs))
    (reach.snoc trivial called) run ?_ ?_ ?_ ?_ owner').2⟩
  · by_contra busy
    exact returned ((polling_owner owner').mpr busy)
  · intro p present
    obtain rfl : o₁ = p := Option.some.inj (owner₁.symm.trans present)
    rw [List.append_nil]
    exact ⟨kind₁.trans handle, owes₁⟩
  · intro absent
    rw [owner₁] at absent
    cases absent
  · rintro s p p' act e fs reach owner busy h ⟨kind, owes⟩
    rw [← List.append_assoc]
    exact ⟨(Owner.act_acts h).key_kind.2.trans kind,
      owes.task ((polling_owner owner).mp busy) kind (strong_pos reach owner) h⟩
  · rintro p p' fs drifts ⟨kind, owes⟩
    exact ⟨drifts.kind.trans kind, owes.drifts drifts⟩

/-- A failed poll leaves the handle as it was when the permit was refused, and cleaned up
otherwise. Its own steps add up to nothing. -/
structure LeavesClean (i : Nat) (w : World) (as : List Action) (o o' : Owner) : Prop where
  refused : w.pending < 0 → ∀ f ∈ observe next (footprints i) w as, f.Untouched
  granted : 0 ≤ w.pending → o'.Restored o.header.value.raw.cursor
  nets : Nets (observe next (footprints i) w as) 0 0

/-- Whatever the operation and the point of failure, and whatever the others do during
the poll. -/
theorem failed_poll_leaves_clean (reach : Reached anyStep (start loops) w)
    (owner : w.owners[i]? = some o) (handle : o.kind = .handle) (polls : w.PollsAmong i as v)
    (owner' : v.owners[i]? = some o') {result : PollResult} (returned : o'.last = some result)
    (failed : result.fails = true) : LeavesClean i w as o o' := by
  obtain ⟨pc, owes⟩ := polls_owes reach owner handle polls owner'
  simp only [Owner.Owes, pc] at owes
  obtain ⟨refused, granted, nets⟩ := owes ⟨result, returned, failed⟩
  exact ⟨refused, fun pending => granted (by omega), nets⟩

/-- A read that the operating system refuses with an access error. -/
def refusedRead : List Action :=
  [.task 0 .registerWaker, .task 0 (.lock false), .task 0 (.prepare 0 (.ok 0)),
    .task 0 (.submit (some 5)), .task 0 .dropOverlapped, .task 0 .dropGuard, .task 0 .dropPermit]

theorem failed_poll_leaves_clean_refused :
    ∃ w v o o', w.PollsAmong 0 (.task 0 (.poll (.pollRead 8) 1) :: refusedRead) v ∧
      o'.last = some (.failed (.os 5)) ∧
      LeavesClean 0 w (.task 0 (.poll (.pollRead 8) 1) :: refusedRead) o o' := by
  obtain ⟨w, o, reach, owner, state⟩ :=
    exec_owner anyStep setup [Schedule.handle] 0 (fun w o =>
      (o.kind, ((w.next (.task 0 (.poll (.pollRead 8) 1))).bind fun u =>
        (exec next (fun w _ => w.polling 0 = true) u refusedRead).bind fun v =>
          v.owners[0]?.map fun o' => (v.polling 0, o'.last))))
      (.handle, some (false, some (.failed (.os 5)))) (by decide)
  simp only [Prod.mk.injEq] at state
  obtain ⟨kind, ran⟩ := state
  obtain ⟨u, called, ran⟩ := Option.bind_eq_some_iff.mp ran
  obtain ⟨v, finished, ran⟩ := Option.bind_eq_some_iff.mp ran
  obtain ⟨o', owner', last⟩ := Option.map_eq_some_iff.mp ran
  simp only [Prod.mk.injEq] at last
  have polls : w.PollsAmong 0 _ v := .intro called (exec_run finished) (by simp [last.1])
  exact ⟨w, v, o, o', polls, last.2,
    failed_poll_leaves_clean reach owner kind polls owner' last.2 rfl⟩

end World

end Iocp
