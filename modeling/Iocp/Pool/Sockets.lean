import Iocp.Library.Transition
import Iocp.Model.Pool

/-!
# What a socket pool does with its sockets

A socket of the pool is named by its index in the vector, which never shrinks:
the operating system may give out the value of a closed socket again. The
indices between `released` and `taken` are in use, and a `take` is right when
it creates its socket: every other socket of the vector was released or closed.
-/

namespace Iocp

/-- What happens to the socket at an index of the pool. -/
inductive SocketUse
  | hand (k : Nat)
  | release (k : Nat)
  | close (k : Nat)
  deriving DecidableEq

namespace SocketUse

/-- The socket at index `k` leaves the pool. -/
def ends (k : Nat) : SocketUse → Bool
  | release j => j = k
  | close j => j = k
  | hand _ => false

/-- How often the socket at index `k` was released or closed. -/
def ended (k : Nat) (es : List SocketUse) : Nat := es.countP (ends k)

/-- Every socket is handed out before it is released or closed only, and it is
released or closed once. -/
structure Linear (es : List SocketUse) : Prop where
  fresh : ∀ ds k rest, es = ds ++ .hand k :: rest → ended k ds = 0
  once : ∀ k, ended k es ≤ 1

variable {k : Nat} {ds es : List SocketUse}

@[simp] theorem ended_append (k : Nat) (ds es : List SocketUse) :
    ended k (ds ++ es) = ended k ds + ended k es := by
  simp [ended]

@[simp] theorem ended_single (k : Nat) (u : SocketUse) :
    ended k [u] = if u.ends k then 1 else 0 := by
  simp [ended, List.countP_cons]

/-- The beginning of a linear history is linear. -/
theorem Linear.append_left (linear : Linear (ds ++ es)) : Linear ds where
  fresh := by
    rintro cs k rest rfl
    exact linear.fresh cs k (rest ++ es) (by simp)
  once := by
    intro k
    have both := linear.once k
    rw [ended_append] at both
    omega

/-- Closing a range of sockets ends each of them once. -/
theorem ended_range (k r n : Nat) :
    ended k ((List.range' r n).map .close) = if r ≤ k ∧ k < r + n then 1 else 0 := by
  induction n generalizing r with
  | zero =>
      rw [if_neg (by omega)]
      rfl
  | succ n ih =>
      have split : ended k ((List.range' r (n + 1)).map .close) =
          ended k ((List.range' (r + 1) n).map .close) + if r = k then 1 else 0 := by
        simp [List.range'_succ, ended, List.countP_cons, ends]
      rw [split, ih]
      split_ifs <;> omega

end SocketUse

namespace SocketPool

open SocketUse

/-- What `take` hands out. -/
def hands (p : SocketPool) (newSocket : Except Nat Nat) : List SocketUse :=
  match (p.take newSocket).2 with
  | .ok (some _) => [.hand p.taken]
  | _ => []

/-- What `release` gives to the caller. -/
def releases (p : SocketPool) : List SocketUse :=
  if p.released < p.sockets.length then [.release p.released] else []

/-- What `clear` closes. -/
def closes (p : SocketPool) : List SocketUse :=
  match p.clear with
  | some _ => (List.range' p.released (p.taken - p.released)).map .close
  | none => []

/-- The history of a pool whose indices agree with it: the sockets in use were
not released or closed, all others were, once. -/
structure Ledger (p : SocketPool) (es : List SocketUse) : Prop where
  released : p.released ≤ p.taken
  taken : p.taken ≤ p.sockets.length
  fresh : ∀ ds k rest, es = ds ++ .hand k :: rest → ended k ds = 0
  settled : ∀ k, ended k es =
    if k < p.sockets.length ∧ ¬ (p.released ≤ k ∧ k < p.taken) then 1 else 0

variable {p : SocketPool} {es : List SocketUse} {newSocket : Except Nat Nat}

theorem Ledger.new : Ledger new [] where
  released := Nat.le_refl 0
  taken := Nat.le_refl 0
  fresh := by simp
  settled := by simp [SocketPool.new, ended]

theorem Ledger.linear (ledger : Ledger p es) : Linear es where
  fresh := ledger.fresh
  once := by
    intro k
    rw [ledger.settled]
    split <;> omega

/-- A use that is not a `take` hands nothing out. -/
theorem Ledger.fresh_append {ds : List SocketUse} (ledger : Ledger p es)
    (away : ∀ k, .hand k ∉ ds) :
    ∀ cs k rest, es ++ ds = cs ++ .hand k :: rest → ended k cs = 0 := by
  intro cs k rest same
  rcases List.append_eq_append_iff.mp same with ⟨bs, rfl, tail⟩ | ⟨bs, rfl, tail⟩
  · exact absurd (tail ▸ List.mem_append_right bs List.mem_cons_self) (away k)
  · cases bs with
    | nil =>
        rw [List.nil_append] at tail
        exact absurd (tail ▸ List.mem_cons_self) (away k)
    | cons b bs =>
        simp only [List.cons_append, List.cons.injEq] at tail
        exact ledger.fresh cs k bs (by rw [← tail.1])

/-- A `take` that creates its socket. -/
theorem Ledger.take (ledger : Ledger p es) (newSocket : Except Nat Nat)
    (creates : p.sockets.length ≤ p.taken) :
    Ledger (p.take newSocket).1 (es ++ p.hands newSocket) := by
  have full : p.taken = p.sockets.length := Nat.le_antisymm ledger.taken creates
  have released := ledger.released
  cases newSocket with
  | error code =>
      have same : p.take (.error code) = (p, .error code) := by simp [SocketPool.take, creates]
      simp only [hands, same, List.append_nil]
      exact ledger
  | ok socket =>
      have made : p.take (.ok socket) =
          ({ p with sockets := p.sockets ++ [socket], taken := p.taken + 1 },
            .ok (some socket)) := by
        simp [SocketPool.take, full]
      simp only [hands, made]
      constructor
      · exact Nat.le_succ_of_le ledger.released
      · simp [full]
      · intro ds k rest same
        rcases List.eq_nil_or_concat rest with rfl | ⟨rest, u, rfl⟩
        · obtain ⟨rfl, last⟩ := List.append_inj' same rfl
          cases last
          rw [ledger.settled, if_neg (by omega)]
        · rw [List.concat_eq_append, ← List.cons_append, ← List.append_assoc] at same
          exact ledger.fresh ds k rest (List.append_inj' same rfl).1
      · intro k
        have none : ended k [.hand p.taken] = 0 := by simp [ends]
        rw [ended_append, none, ledger.settled]
        simp only [List.length_append, List.length_singleton]
        split_ifs <;> omega

/-- A `take` from a pool whose sockets are all taken leaves none. -/
theorem take_full (newSocket : Except Nat Nat) (full : p.taken = p.sockets.length) :
    p.sockets.length ≤ (p.take newSocket).1.sockets.length ∧
      (p.take newSocket).1.taken = (p.take newSocket).1.sockets.length ∧
      (p.take newSocket).1.released = p.released := by
  cases newSocket <;> simp [SocketPool.take, full]

/-- A `take` that finds a socket in the vector hands out one that was used up. -/
theorem Ledger.reused (ledger : Ledger p es) (found : p.taken < p.sockets.length) :
    ¬ Linear (es ++ p.hands newSocket) := by
  intro linear
  have handed : p.hands newSocket = [.hand p.taken] := by
    have exist : ¬ p.sockets.length ≤ p.taken := by omega
    simp [hands, SocketPool.take, exist, found]
  rw [handed] at linear
  have unused := linear.fresh es p.taken [] rfl
  rw [ledger.settled, if_pos ⟨found, by omega⟩] at unused
  cases unused

/-- A `release` of a socket in use. -/
theorem Ledger.release (ledger : Ledger p es) (held : p.released < p.taken) :
    Ledger p.release.1 (es ++ p.releases) := by
  have bound : p.released < p.sockets.length := Nat.lt_of_lt_of_le held ledger.taken
  simp only [releases, if_pos bound]
  constructor
  · exact held
  · exact ledger.taken
  · exact ledger.fresh_append (by simp)
  · intro k
    have one : ended k [.release p.released] = if p.released = k then 1 else 0 := by simp [ends]
    rw [ended_append, one, ledger.settled]
    change _ = if k < p.sockets.length ∧ ¬ (p.released + 1 ≤ k ∧ k < p.taken) then 1 else 0
    by_cases here : p.released = k
    · rw [if_pos here, if_neg (by omega), if_pos (by omega)]
    · rw [if_neg here, Nat.add_zero]
      exact if_congr (by omega) rfl rfl

/-- A `clear` closes the sockets in use. -/
theorem Ledger.clear (ledger : Ledger p es) :
    ∃ q, p.clear = some q ∧ q.taken = 0 ∧ q.released = 0 ∧ q.sockets = p.sockets ∧
      Ledger q (es ++ p.closes) := by
  have cleared : p.clear = some { p with
      closed := p.closed ++ (p.sockets.take p.taken).drop p.released
      released := 0
      taken := 0 } := if_pos ⟨ledger.released, ledger.taken⟩
  refine ⟨_, cleared, rfl, rfl, rfl, ?_⟩
  simp only [closes, cleared]
  have released := ledger.released
  have taken := ledger.taken
  constructor
  · exact Nat.le_refl 0
  · exact Nat.zero_le _
  · exact ledger.fresh_append (by simp)
  · intro k
    rw [ended_append, ended_range, ledger.settled]
    simp only
    split_ifs <;> omega

end SocketPool

end Iocp
