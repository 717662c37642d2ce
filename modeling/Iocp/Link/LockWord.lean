import Iocp.Link.Lift
import Iocp.Model.Schedule

/-!
# The lock word of a header

The word is zero when the header is open, the positive word of a code while
an operation of that code is under way, and its negation once the completion
was processed and the result waits to be collected. This holds as long as no
poll takes a completed word over with another code: `header_lock` then stores
zero where it should store the word of its own code, and the operation it
goes on to submit is in flight on an open header.
-/

namespace Iocp

open Totals Transition

namespace Owner

/-- The exchange of `header_lock` does not find a completed word of another code. -/
def sameCode (o : Owner) : TaskAct → Bool
  | .lock _ =>
      match o.pc with
      | .registered call => 0 ≤ o.lockWord || o.lockWord = -call.code.word
      | _ => true
  | _ => true

/-- The exchange of `header_lock` fails on a real mismatch only, and does not
find a completed word of another code. -/
def keepsWord (o : Owner) (a : TaskAct) : Bool :=
  o.sameCode a &&
    match a with
    | .lock spurious => o.lockWord ≠ 0 || !spurious
    | _ => true

end Owner

/-- No weak compare-exchange fails without a mismatch. -/
def Action.exact : Action → Bool
  | .task _ (.lock spurious) => !spurious
  | .driver _ (.exchange spurious) => !spurious
  | _ => true

namespace World

/-- No poll finds a completed word of another code. -/
def sameCode (w : World) (a : Action) : Bool := w.ownerStep Owner.sameCode a

/-- No poll locks the header with a word other than that of its code. -/
def keepsWord (w : World) (a : Action) : Bool := w.ownerStep Owner.keepsWord a

/-- Exact exchanges that find no foreign completed word keep the word. -/
theorem keepsWord_of_exact {w : World} {a : Action} (exact : a.exact = true)
    (same : w.sameCode a = true) : w.keepsWord a = true := by
  cases a with
  | task i act =>
      cases owner : w.owners[i]? with
      | none => simp [keepsWord, ownerStep, owner]
      | some o =>
          simp only [sameCode, keepsWord, ownerStep_task owner] at same ⊢
          cases act <;> simp_all [Owner.keepsWord, Action.exact]
  | _ => rfl

/-- The tokens of the header of owner `i` whose packet was not processed. -/
def unprocessed (w : World) (i : Nat) : Multiset Token :=
  (w.tokensOf i).filter fun t => t.stage.live

end World

namespace Link

/-- The tokens whose packet was not processed. -/
def live (L : Link) : Multiset Token := L.tokens.filter fun t => t.stage.live

/-- The status in the OVERLAPPED is that of an operation submitted on this
header under the code. -/
def Holds (i : Nat) (L : Link) (c : Code) : Prop :=
  ∃ op status, L.owner.header.value.raw.internal = .final op status ∧
    op.code = c ∧ op.owner = i

/-- A single operation is under way, submitted under the code; once it has
left the operating system its status is in the OVERLAPPED. -/
def Carried (i : Nat) (L : Link) (c : Code) : Prop :=
  ∃ t, L.live = {t} ∧ t.op.code = c ∧ t.op.owner = i ∧
    (t.stage = .inFlight ∨ ∃ status, L.owner.header.value.raw.internal = .final t.op status)

/-- The header is locked under the code, by an operation under way or by none. -/
def Locked (i : Nat) (L : Link) (c : Code) : Prop :=
  L.owner.lockWord = c.word ∧ (L.live = 0 ∨ L.Carried i c)

/-- The operation under the code was processed and its result waits. -/
def Completed (i : Nat) (L : Link) (c : Code) : Prop :=
  L.owner.lockWord = -c.word ∧ L.live = 0 ∧ L.Holds i c

/-- What holds while no guard is alive. -/
def Unguarded (i : Nat) (L : Link) : Prop :=
  (L.owner.lockWord = 0 ∧ L.live = 0) ∨ ∃ c, L.Locked i c ∨ L.Completed i c

/-- The lock word agrees with the program point of the owner and with the
operations under way. -/
def Sound (i : Nat) (L : Link) : Prop :=
  match L.owner.pc with
  | .storing call n => n = L.owner.lockWord ∧ L.Completed i call.code
  | .guarded call .idle => L.owner.lockWord = call.code.word ∧ L.live = 0
  | .guarded call .pending => L.owner.lockWord = 0 ∧ L.live = 0 ∧ L.Holds i call.code
  | .prepared call _ => L.owner.lockWord = call.code.word ∧ L.live = 0
  | .accepted call => L.Locked i call.code ∨ L.Completed i call.code
  | .dropOverlapped _ => L.live = 0 ∧ (L.owner.lockWord = 0 ∨ ∃ c, L.owner.lockWord = Code.word c)
  | .dropGuard _ => L.live = 0 ∧ (L.owner.lockWord = 0 ∨ ∃ c, L.owner.lockWord = Code.word c)
  | _ => L.Unguarded i

section Background

variable {i : Nat} {L L' : Link} {l : Label} {c : Code}

theorem live_cons (o : Owner) (t : Token) (T : Multiset Token) :
    (Link.mk o (t ::ₘ T)).live =
      if t.stage.live then t ::ₘ (Link.mk o T).live else (Link.mk o T).live := by
  simp only [live, Multiset.filter_cons]
  split <;> simp

/-- The packet of the token at the head of a header without live tokens was processed. -/
theorem stage_of_live {o : Owner} {t : Token} {T : Multiset Token}
    (h : (Link.mk o (t ::ₘ T)).live = 0) : t.stage.live = false ∧ (Link.mk o T).live = 0 := by
  rw [live_cons] at h
  split at h
  · exact absurd h (Multiset.cons_ne_zero)
  · exact ⟨by simp_all, h⟩

/-- While nothing is under way, nobody but the owner changes the word or the status. -/
theorem background_quiet (step : Step i L l L') (other : ∀ a, l ≠ .task a) (none : L.live = 0) :
    L'.owner.lockWord = L.owner.lockWord ∧ L'.live = 0 ∧
      L'.owner.header.value.raw.internal = L.owner.header.value.raw.internal := by
  cases step with
  | task acts => exact absurd rfl (other _)
  | wake =>
      obtain ⟨-, rest⟩ := stage_of_live none
      refine ⟨rfl, ?_, rfl⟩
      rw [live_cons, if_neg (by simp [Stage.live])]
      exact rest
  | drop =>
      obtain ⟨-, rest⟩ := stage_of_live none
      exact ⟨rfl, rest, rfl⟩
  | _ => exact absurd (stage_of_live none).1 (by simp [Stage.live])

/-- A live token at the head of a header with a single live token is that token. -/
theorem single_live {o : Owner} {t u : Token} {T : Multiset Token}
    (h : (Link.mk o (t ::ₘ T)).live = {u}) (hl : t.stage.live = true) :
    t = u ∧ (Link.mk o T).live = 0 := by
  rw [live_cons, if_pos hl] at h
  obtain ⟨ht, hT⟩ := (Multiset.singleton_eq_cons_iff _).mp h.symm
  exact ⟨ht.symm, hT⟩

/-- The live tokens after the token at the head moved to a live stage. -/
theorem live_moved {o : Owner} {t : Token} {T : Multiset Token}
    (hl : t.stage.live = true) (rest : (Link.mk o T).live = 0) :
    (Link.mk o (t ::ₘ T)).live = {t} := by
  rw [live_cons, if_pos hl, rest]
  rfl

theorem live_ne_zero {o : Owner} {t : Token} {T : Multiset Token} (hl : t.stage.live = true) :
    (Link.mk o (t ::ₘ T)).live ≠ 0 := by
  rw [live_cons, if_pos hl]
  exact Multiset.cons_ne_zero

/-- Loading a positive word keeps the packet unprocessed. -/
theorem unlockLoad_pos {h : Header} (word : 0 < h.lock) : h.unlockLoad = .retry h.lock := by
  simp [Header.unlockLoad, Header.unlockTest, word]

/-- The exchange of `unlock` negates the positive word or finds it and tries again. -/
theorem unlockExchange_pos {h : Header} (word : 0 < h.lock) (old : Int) (spurious : Bool) :
    h.unlockExchange old spurious = ({ h with lock := -h.lock }, .returned true) ∨
      h.unlockExchange old spurious = (h, .retry h.lock) := by
  by_cases hw : spurious = false ∧ h.lock = old
  · obtain ⟨rfl, rfl⟩ := hw
    left
    simp [Header.unlockExchange, Header.compareExchangeWeak]
  · right
    simp [Header.unlockExchange, Header.compareExchangeWeak, hw, Header.unlockTest, word]

/-- Once `unlock` has returned true, its packet is processed. -/
theorem live_afterUnlock (release : Bool) :
    (Stage.afterUnlock release (.returned true)).live = false := by
  cases release <;> rfl

/-- A locked header stays locked under its code until the operation under way
was processed. -/
theorem background_locked (step : Step i L l L') (other : ∀ a, l ≠ .task a)
    (locked : L.Locked i c) : L'.Locked i c ∨ L'.Completed i c := by
  obtain ⟨word, none | carried⟩ := locked
  · obtain ⟨hw, hl, -⟩ := background_quiet step other none
    exact .inl ⟨hw.trans word, .inl hl⟩
  · have pos : 0 < L.owner.header.value.lock := by
      have := c.word_pos
      rw [Owner.lockWord] at word
      omega
    obtain ⟨t, single, code, own, status⟩ := carried
    cases step with
    | task acts => exact absurd rfl (other _)
    | @complete o op status' T admits =>
        obtain ⟨rfl, rest⟩ := single_live single rfl
        refine .inl ⟨word, .inr ⟨_, live_moved rfl rest, code, own, .inr ⟨status', rfl⟩⟩⟩
    | dequeue | account =>
        obtain ⟨rfl, rest⟩ := single_live single rfl
        have final := status.resolve_left (by simp)
        exact .inl ⟨word, .inr ⟨_, live_moved rfl rest, code, own, .inr final⟩⟩
    | load =>
        obtain ⟨rfl, rest⟩ := single_live single rfl
        have final := status.resolve_left (by simp)
        rw [unlockLoad_pos pos]
        exact .inl ⟨word, .inr ⟨_, live_moved rfl rest, code, own, .inr final⟩⟩
    | @exchange o op old release spurious T =>
        obtain ⟨rfl, rest⟩ := single_live single rfl
        obtain ⟨final, hfinal⟩ := status.resolve_left (by simp)
        rcases unlockExchange_pos pos old spurious with won | retry
        · rw [won]
          refine .inr ⟨congrArg Neg.neg word, ?_, op, final, hfinal, code, own⟩
          rw [live_cons, if_neg (by simp [live_afterUnlock])]
          exact rest
        · rw [retry]
          exact .inl ⟨word, .inr ⟨_, live_moved rfl rest, code, own, .inr ⟨final, hfinal⟩⟩⟩
    | wake =>
        rw [live_cons, if_neg (by simp [Stage.live])] at single
        refine .inl ⟨word, .inr ⟨t, ?_, code, own, status⟩⟩
        rw [live_cons, if_neg (by simp [Stage.live])]
        exact single
    | skip =>
        obtain ⟨rfl, rest⟩ := single_live single rfl
        refine .inl ⟨word, .inl ?_⟩
        rw [live_cons, if_neg (by simp [Stage.live])]
        exact rest
    | drop =>
        rw [live_cons, if_neg (by simp [Stage.live])] at single
        exact .inl ⟨word, .inr ⟨t, single, code, own, status⟩⟩

/-- A waiting result stays as it is until the owner collects it. -/
theorem background_completed (step : Step i L l L') (other : ∀ a, l ≠ .task a)
    (completed : L.Completed i c) : L'.Completed i c := by
  obtain ⟨word, none, op, status, hop, code, own⟩ := completed
  obtain ⟨hw, hl, hi⟩ := background_quiet step other none
  exact ⟨hw.trans word, hl, op, status, hi.trans hop, code, own⟩

/-- What the operating system and the threads do keeps the lock word sound. -/
theorem Sound.background (sound : L.Sound i) (step : Step i L l L') (other : ∀ a, l ≠ .task a) :
    L'.Sound i := by
  have pc := background_pc step other
  have quiet := background_quiet step other
  have taken (c : Code) (h : L.Locked i c ∨ L.Completed i c) :
      L'.Locked i c ∨ L'.Completed i c := by
    rcases h with locked | completed
    · exact background_locked step other locked
    · exact .inr (background_completed step other completed)
  unfold Sound at sound ⊢
  rw [pc]
  cases hpc : L.owner.pc with
  | storing call n =>
      simp only [hpc] at sound ⊢
      obtain ⟨rfl, completed⟩ := sound
      exact ⟨(quiet completed.2.1).1.symm, background_completed step other completed⟩
  | guarded call state =>
      cases state with
      | idle =>
          simp only [hpc] at sound ⊢
          obtain ⟨hw, hl, -⟩ := quiet sound.2
          exact ⟨hw.trans sound.1, hl⟩
      | pending =>
          simp only [hpc] at sound ⊢
          obtain ⟨word, none, op, status, hop, code, own⟩ := sound
          obtain ⟨hw, hl, hi⟩ := quiet none
          exact ⟨hw.trans word, hl, op, status, hi.trans hop, code, own⟩
  | prepared call request =>
      simp only [hpc] at sound ⊢
      obtain ⟨hw, hl, -⟩ := quiet sound.2
      exact ⟨hw.trans sound.1, hl⟩
  | accepted call =>
      simp only [hpc] at sound ⊢
      exact taken _ sound
  | dropOverlapped result | dropGuard result =>
      simp only [hpc] at sound ⊢
      obtain ⟨hw, hl, -⟩ := quiet sound.1
      exact ⟨hl, hw.symm ▸ sound.2⟩
  | _ =>
      simp only [hpc] at sound ⊢
      rcases sound with ⟨word, none⟩ | ⟨c, h⟩
      · obtain ⟨hw, hl, -⟩ := quiet none
        exact .inl ⟨hw.trans word, hl⟩
      · exact .inr ⟨c, taken c h⟩

end Background

section Task

variable {i : Nat} {o o' : Owner} {pending : Int} {a : TaskAct} {e : Effect} {T : Multiset Token}

theorem Unguarded.of_zero (h : (Link.mk o T).Unguarded i) (word : o.lockWord = 0) :
    (Link.mk o T).live = 0 := by
  rcases h with ⟨-, none⟩ | ⟨c, ⟨hw, -⟩ | ⟨-, none, -⟩⟩
  · exact none
  · have := c.word_pos
    simp only [] at hw
    omega
  · exact none

/-- A negative word is that of a completed operation. -/
theorem Unguarded.of_neg (h : (Link.mk o T).Unguarded i) (word : o.lockWord < 0) :
    ∃ c, (Link.mk o T).Completed i c := by
  rcases h with ⟨h0, -⟩ | ⟨c, ⟨hw, -⟩ | completed⟩
  · simp only [] at h0
    omega
  · have := c.word_pos
    simp only [] at hw
    omega
  · exact ⟨c, completed⟩

/-- The exchange of `header_lock` fails, when it keeps the word, only on the
completed word of its own code. -/
theorem completed_of_keepsWord {call : Call} {spurious : Bool}
    (h : (Link.mk o T).Unguarded i) (pc : o.pc = .registered call) (word : o.lockWord ≤ 0)
    (failed : o.lockWord = 0 → spurious = true) (keeps : o.keepsWord (.lock spurious) = true) :
    (Link.mk o T).Completed i call.code := by
  simp only [Owner.keepsWord, Owner.sameCode, pc, Bool.and_eq_true, Bool.or_eq_true,
    decide_eq_true_eq] at keeps
  obtain ⟨same, wins⟩ := keeps
  have neg : o.lockWord < 0 := by
    rcases wins with hne | hs
    · omega
    · by_contra hge
      have h0 : o.lockWord = 0 := by omega
      simp [failed h0] at hs
  obtain ⟨c, completed⟩ := h.of_neg neg
  have hc : c = call.code := by
    apply Code.word_injective
    have hw : o.lockWord = -c.word := completed.1
    omega
  exact hc ▸ completed

/-- The steps of a poll and of a drop that submit nothing keep the lock word sound. -/
theorem Sound.quiet (sound : (Link.mk o T).Sound i) (acts : o.Acts i pending a o' e)
    (keeps : o.keepsWord a = true) (none : e.submit = none) : (Link.mk o' T).Sound i := by
  unfold Sound at sound
  cases acts with
  | submit pc accepted => cases none
  | lockOpen pc word =>
      simp only [pc] at sound
      have none := Unguarded.of_zero sound word
      exact ⟨rfl, none⟩
  | lockStore pc word failed =>
      simp only [pc] at sound
      have completed := completed_of_keepsWord sound pc word failed keeps
      exact ⟨rfl, completed⟩
  | @storeOpen call n pc =>
      simp only [pc] at sound
      obtain ⟨rfl, word, none, held⟩ := sound
      have own : call.code.word = -o.lockWord := by
        simp only [] at word
        omega
      rw [if_pos own]
      exact ⟨rfl, none, held⟩
  | prepareFail pc notPending =>
      simp only [pc] at sound
      exact ⟨sound.2, .inr ⟨_, sound.1⟩⟩
  | refuseSubmit pc refused =>
      simp only [pc] at sound
      exact ⟨sound.2, .inr ⟨_, sound.1⟩⟩
  | collect pc notPending =>
      simp only [pc] at sound
      exact ⟨sound.2.1, .inl sound.1⟩
  | dropGuard pc =>
      simp only [pc] at sound
      exact .inl ⟨rfl, sound.1⟩
  | dropGuardPanic pc kind =>
      simp only [pc] at sound
      obtain ⟨none, word | ⟨c, word⟩⟩ := sound
      · exact .inl ⟨word, none⟩
      · exact .inr ⟨c, .inl ⟨word, .inl none⟩⟩
  | forget pc =>
      simp only [pc] at sound
      exact .inr ⟨_, sound⟩
  | permit pc kind granted =>
      simp only [pc] at sound
      exact sound
  | refusePermit pc kind refused =>
      simp only [pc] at sound
      exact sound
  | lockBusy pc word =>
      simp only [pc] at sound
      exact sound
  | prepareRequest pc prepared =>
      simp only [pc] at sound
      exact sound
  | _ pc =>
      simp only [pc] at sound
      exact sound

/-- The steps of a poll and of a drop keep the lock word sound. -/
theorem Sound.task (sound : (Link.mk o T).Sound i) (acts : o.Acts i pending a o' e)
    (keeps : o.keepsWord a = true) : (Link.mk o' (e.tokens + T)).Sound i := by
  cases submit : e.submit with
  | none =>
      rw [Effect.tokens_none submit]
      exact sound.quiet acts keeps submit
  | some op =>
      rw [Effect.tokens_some submit]
      obtain ⟨call, request, pc, rfl, rfl⟩ := acts.submitted submit
      simp only [Sound, pc] at sound
      obtain ⟨word, none⟩ := sound
      exact .inl ⟨word, .inr ⟨_, live_moved rfl none, rfl, rfl, .inl rfl⟩⟩

/-- Every step that keeps the word keeps it sound. -/
theorem Sound.step {L L' : Link} {l : Label} (sound : L.Sound i) (step : Step i L l L')
    (keeps : ∀ a, l = .task a → L.owner.keepsWord a = true) : L'.Sound i := by
  rcases step.task_or_other with ⟨pending, a, o', e, rfl, acts, rfl⟩ | other
  · exact sound.task acts (keeps a rfl)
  · exact sound.background step other

end Task

end Link

namespace World

/-- The operations on the header of owner `i` that the operating system has not ended. -/
def flying (w : World) (i : Nat) : List Op := w.inFlight.filter fun op => op.owner = i

/-- The tokens of the operations that the operating system has not ended. -/
theorem total_flying (l : List Op) (i : Nat) :
    (((total (fun op => ({⟨op, .inFlight⟩} : Multiset Token)) l).filter
      fun t => t.op.owner = i).filter fun t => t.stage.live) =
      ((l.filter fun op => op.owner = i).map fun op => (⟨op, .inFlight⟩ : Token)) := by
  induction l with
  | nil => rfl
  | cons op l ih =>
      rw [total_cons, Multiset.filter_add, Multiset.filter_add, ih, List.filter_cons]
      by_cases h : op.owner = i
      · simp [h, Multiset.filter_singleton, Stage.live]
      · simp [h, Multiset.filter_singleton]

/-- An operation in flight is not processed. -/
theorem flying_le (w : World) (i : Nat) :
    ((w.flying i).map fun op => (⟨op, .inFlight⟩ : Token) : Multiset Token) ≤ w.unprocessed i := by
  rw [unprocessed, tokensOf, tokens, flying, ← total_flying, Multiset.filter_add,
    Multiset.filter_add, Multiset.filter_add, Multiset.filter_add, add_assoc]
  exact Multiset.le_add_right _ _

/-- The lock word of a header in every run in which the polls of its owner keep it. -/
theorem reached_sound_at {ok : World → Action → Prop} {loops : List Loop} {w : World} {i : Nat}
    {o : Owner}
    (keeps : ∀ w act, Reached ok (start loops) w → ok w (.task i act) →
      w.keepsWord (.task i act) = true)
    (reach : Reached ok (start loops) w) (owner : w.owners[i]? = some o) :
    Link.Sound i ⟨o, w.tokensOf i⟩ := by
  suffices all : w.AllLinks fun j L => j = i → L.Sound j from all i o owner rfl
  refine reached_links reach ?_ ?_
  · rintro j kind key size -
    exact .inl ⟨rfl, rfl⟩
  · rintro w a j o l L before good owner' concerns step sound rfl
    apply (sound rfl).step step
    rintro act rfl
    have keep := keeps w act before (concerns.task ▸ good)
    rwa [keepsWord, ownerStep_task owner'] at keep

/-- The lock word of every header in every run that keeps it. -/
theorem reached_sound {ok : World → Action → Prop} {loops : List Loop} {w : World}
    (keeps : ∀ w a, ok w a → w.keepsWord a = true) (reach : Reached ok (start loops) w) :
    w.AllLinks Link.Sound :=
  fun _ _ owner => reached_sound_at (fun w _ _ good => keeps w _ good) reach owner

/-- What the lock word of the header of owner `i` promises: one operation at a
time, locked under its own code, whose result only that code collects. -/
structure Exclusive (w : World) (i : Nat) (o : Owner) : Prop where
  flying : (w.flying i).length ≤ 1
  unprocessed : (w.unprocessed i).card ≤ 1
  word : ∀ t ∈ w.unprocessed i, o.lockWord = t.op.code.word
  collects : ∀ call, o.pc = .guarded call .pending →
    ∃ op status, o.header.value.raw.internal = .final op status ∧
      op.code = call.code ∧ op.owner = i

end World

namespace Link

variable {i : Nat} {L : Link}

/-- At most one operation is under way, and its code is the word. -/
theorem Sound.single (sound : L.Sound i) :
    L.live = 0 ∨ ∃ t, L.live = {t} ∧ L.owner.lockWord = t.op.code.word := by
  have taken {c : Code} (h : L.Locked i c ∨ L.Completed i c) :
      L.live = 0 ∨ ∃ t, L.live = {t} ∧ L.owner.lockWord = t.op.code.word := by
    rcases h with ⟨word, none | ⟨t, single, code, -⟩⟩ | ⟨-, none, -⟩
    · exact .inl none
    · exact .inr ⟨t, single, code ▸ word⟩
    · exact .inl none
  unfold Sound at sound
  split at sound
  · exact .inl sound.2.2.1
  · exact .inl sound.2
  · exact .inl sound.2.1
  · exact .inl sound.2
  · exact taken sound
  · exact .inl sound.1
  · exact .inl sound.1
  · rcases sound with ⟨-, none⟩ | ⟨c, h⟩
    · exact .inl none
    · exact taken h

/-- While an operation is under way the word is positive. -/
theorem Sound.word_pos (sound : L.Sound i) (some : L.live ≠ 0) : 0 < L.owner.lockWord := by
  rcases sound.single with none | ⟨t, -, word⟩
  · exact absurd none some
  · rw [word]
    exact t.op.code.word_pos

end Link

namespace World

theorem exclusive_of_sound {w : World} {i : Nat} {o : Owner}
    (sound : Link.Sound i ⟨o, w.tokensOf i⟩) : w.Exclusive i o := by
  have single := sound.single
  have card : (w.unprocessed i).card ≤ 1 := by
    rcases single with none | ⟨t, ht, -⟩
    · exact (congrArg Multiset.card none).le.trans (by simp)
    · exact (congrArg Multiset.card ht).le
  refine ⟨?_, card, ?_, ?_⟩
  · calc
      (w.flying i).length =
          (((w.flying i).map fun op => (⟨op, .inFlight⟩ : Token) : Multiset Token)).card := by simp
      _ ≤ (w.unprocessed i).card := Multiset.card_le_card (w.flying_le i)
      _ ≤ 1 := card
  · intro t ht
    rcases single with none | ⟨u, hu, word⟩
    · exact absurd (none ▸ ht : t ∈ (0 : Multiset Token)) (Multiset.notMem_zero t)
    · have htu : t = u := Multiset.mem_singleton.mp (hu ▸ ht)
      exact htu ▸ word
  · intro call pc
    simp only [Link.Sound, pc] at sound
    exact sound.2.2

/-- As long as no poll finds the completed word of another code, and no weak
exchange fails on a match, every header has at most one operation under way,
is locked under its code, and collects results of its own code only. -/
theorem one_operation_under_its_code {loops : List Loop} {w : World}
    (reach : Reached (fun w a => a.exact ∧ w.sameCode a) (start loops) w) {i : Nat} {o : Owner}
    (owner : w.owners[i]? = some o) : w.Exclusive i o := by
  apply exclusive_of_sound
  exact reached_sound (fun w a h => keepsWord_of_exact h.1 h.2) reach i o owner

/-- A read is submitted, completed and released, and polled again up to its result. -/
def collectedRead : List Action :=
  Schedule.pendingRead ++ [.complete 0 (.success 4 [1, 2, 3, 4])] ++ Schedule.drive 0 true ++
    Schedule.enter 0 (.pollRead 8) 1 ++ [.task 0 .storeOpen]

theorem one_operation_under_its_code_collected :
    ∃ w o, Reached (fun w a => a.exact ∧ w.sameCode a) setup w ∧ w.owners[0]? = some o ∧
      o.pc = .guarded (.pollRead 8) .pending ∧ w.Exclusive 0 o := by
  obtain ⟨w, o, reach, owner, pc⟩ :=
    exec_owner (fun w a => a.exact ∧ w.sameCode a) setup collectedRead 0 (fun _ o => o.pc)
      (.guarded (.pollRead 8) .pending) (by decide)
  exact ⟨w, o, reach, owner, pc, one_operation_under_its_code reach owner⟩

/-- After a read completed, a write takes its word over and is submitted on the
open header, and so is the write of the next poll. -/
def switchedCode : List Action :=
  Schedule.pendingRead ++ [.complete 0 (.success 4 [1, 2, 3, 4])] ++ Schedule.drive 0 true ++
    Schedule.enter 0 (.pollWrite [5]) 1 ++ [.task 0 .storeOpen] ++ Schedule.submit 0 ++
    [.task 0 .forget] ++ Schedule.submitted 0 (.pollWrite [6]) 1

/-- A change of the code after a completion ends with two writes in flight. -/
theorem switched_code_not_exclusive :
    ¬ ∀ w, Reached (fun _ a => a.exact) setup w → ∀ i o, w.owners[i]? = some o →
      w.Exclusive i o := by
  intro always
  obtain ⟨w, o, reach, owner, two⟩ :=
    exec_owner (fun _ a => a.exact) setup switchedCode 0 (fun w _ => (w.flying 0).length) 2
      (by decide)
  have one := (always w reach 0 o owner).flying
  omega

end World

end Iocp
