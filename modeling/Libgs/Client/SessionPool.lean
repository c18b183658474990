import Libgs.Core.Base
import Libgs.Lib.OrderedMap
import Libgs.Lib.Run

/-!
# The pool of sessions

`basic_session_pool` of `http/client/detail/session_pool.h` with its asynchronous `get`. The coroutines of many gets and
the operations on the pool take turns in any order, as the executors have it. A session that is destroyed hands its
socket back with `emplace`.
-/

namespace Libgs.Client

open Lib

variable {endpoint_t : Type}

/-! ## Sockets and sessions -/

/-- `remote_endpoint` throws where the socket is not connected. -/
structure socket_t (endpoint_t : Type) where
  is_open : Bool
  remote_endpoint : Option endpoint_t
  deriving DecidableEq

def socket_t.init : socket_t endpoint_t := ⟨false, none⟩

/-- A session owns a socket until it is moved from. -/
structure session_t (endpoint_t : Type) where
  m_socket : socket_t endpoint_t
  moved_from : Bool
  deriving DecidableEq

def session_t.init (socket : socket_t endpoint_t) : session_t endpoint_t := ⟨socket, false⟩

/-- What `std::move` leaves behind: the session gets a new `impl`. -/
def session_t.moved : session_t endpoint_t := ⟨.init, true⟩

/-! ## The coroutine -/

/-- Where the coroutine of a `get` is -/
inductive get_coroutine
  | spawned
  | connecting
  | ended
  deriving DecidableEq

/-- What the handler of a `get` is called with -/
structure completion (endpoint_t : Type) where
  error : error_code
  sess : session_t endpoint_t
  deriving DecidableEq

/-- An asynchronous `get`. `pooled` is the branch that `impl::get` took: there was a socket for the endpoint. -/
structure async_get (endpoint_t : Type) where
  ep : endpoint_t
  pooled : Bool
  sess : session_t endpoint_t
  coroutine : get_coroutine
  calls : List (completion endpoint_t)
  deriving DecidableEq

/-- How the race between the connect and the timer ends. A connect that is cancelled by the timer may leave an error
behind. -/
inductive race
  | connected
  | refused (error : error_value)
  | expired (error : error_code)
  deriving DecidableEq

/-- The error that the handler is called with -/
def race.error : race → error_code
  | connected => none
  | refused error => some error
  | expired error => error.or (some errc.timed_out)

namespace async_get

/-- `std::move(*wake_up)(error, std::move(sess))` -/
def wake_up (g : async_get endpoint_t) (error : error_code) : async_get endpoint_t :=
  { g with calls := g.calls ++ [⟨error, g.sess⟩], sess := .moved }

/-- The coroutine begins. With an open socket the handler is called, and the coroutine goes on all the same. -/
def enter (g : async_get endpoint_t) : async_get endpoint_t :=
  match g.coroutine with
  | .spawned => { (if g.sess.m_socket.is_open then g.wake_up none else g) with coroutine := .connecting }
  | _ => g

/-- What `helper.connect` does to the socket. Behind the fast path `helper` refers into the session that was handed
over, which its receiver may have destroyed; here it is taken to be there still. -/
def connect (g : async_get endpoint_t) (winner : race) : async_get endpoint_t :=
  if g.sess.moved_from then g
  else { g with sess := .init ⟨true, if winner = .connected then some g.ep else none⟩ }

/-- The race is over, and the handler is called with the session that there is. -/
def race_over (winner : race) (g : async_get endpoint_t) : async_get endpoint_t :=
  match g.coroutine with
  | .connecting => { (g.connect winner).wake_up winner.error with coroutine := .ended }
  | _ => g

/-- The cancellation leaves the race as an exception, and `detached` drops it. -/
def cancel (g : async_get endpoint_t) : async_get endpoint_t :=
  match g.coroutine with
  | .connecting => { g with coroutine := .ended }
  | _ => g

end async_get

/-! ## The pool -/

/-- The sockets that are kept, and the calls of `get` that there were -/
structure session_pool (endpoint_t : Type) [LinearOrder endpoint_t] where
  m_sock_map : OrderedMap (id : endpoint_t → endpoint_t) (socket_t endpoint_t)
  gets : List (async_get endpoint_t)

/-- The calls of the pool, and what its coroutines do next -/
inductive pool_event (endpoint_t : Type)
  | emplace (socket : socket_t endpoint_t)
  | get_sync (ep : endpoint_t)
  | get (ep : endpoint_t)
  | entered (i : ℕ)
  | race_over (i : ℕ) (winner : race)
  | cancelled (i : ℕ)

namespace session_pool

variable [LinearOrder endpoint_t]

def init : session_pool endpoint_t := ⟨.empty, []⟩

def emplace (s : session_pool endpoint_t) (socket : socket_t endpoint_t) : session_pool endpoint_t :=
  if socket.is_open then
    match socket.remote_endpoint with
    | some ep => { s with m_sock_map := s.m_sock_map.emplace ep socket }
    | none => s
  else s

/-- `impl::get`, which takes the socket out of the map -/
def take (s : session_pool endpoint_t) (ep : endpoint_t) : session_t endpoint_t × session_pool endpoint_t :=
  match s.m_sock_map.find ep with
  | none => (.init .init, s)
  | some socket => (.init socket, { s with m_sock_map := s.m_sock_map.erase ep })

/-- The socket is taken at once; the coroutine is spawned. -/
def get (s : session_pool endpoint_t) (ep : endpoint_t) : session_pool endpoint_t :=
  let (sess, s') := s.take ep
  { s' with gets := s'.gets ++ [⟨ep, (s.m_sock_map.find ep).isSome, sess, .spawned, []⟩] }

/-- An event that cannot happen changes nothing. -/
def step (s : session_pool endpoint_t) : pool_event endpoint_t → session_pool endpoint_t
  | .emplace socket => s.emplace socket
  | .get_sync ep => (s.take ep).2
  | .get ep => s.get ep
  | .entered i => { s with gets := s.gets.modify i async_get.enter }
  | .race_over i winner => { s with gets := s.gets.modify i (async_get.race_over winner) }
  | .cancelled i => { s with gets := s.gets.modify i async_get.cancel }

end session_pool

/-! ## One completion -/

/-- The handler is called once at most, with a session that nobody else has. -/
structure CompletedOnce (g : async_get endpoint_t) : Prop where
  once : g.calls.length ≤ 1
  whole : ∀ c ∈ g.calls, c.sess.moved_from = false

def AllCompletedOnce [LinearOrder endpoint_t] (s : session_pool endpoint_t) : Prop := ∀ g ∈ s.gets, CompletedOnce g

/-- The step does not end the race of a get that had found a socket in the pool. -/
def NoPooledRace [LinearOrder endpoint_t] (s : session_pool endpoint_t) : pool_event endpoint_t → Prop
  | .race_over i _ => ∀ g, s.gets[i]? = some g → g.coroutine = .connecting → g.pooled = false
  | _ => True

/-! ## Where a coroutine is -/

inductive Located (g : async_get endpoint_t) : Prop
  | spawned (coroutine : g.coroutine = .spawned) (calls : g.calls = []) (whole : g.sess.moved_from = false)
      (is_open : g.sess.m_socket.is_open = g.pooled)
  | fresh (coroutine : g.coroutine = .connecting) (pooled : g.pooled = false) (calls : g.calls = [])
      (whole : g.sess.moved_from = false)
  | pooled (coroutine : g.coroutine = .connecting) (pooled : g.pooled = true) (calls : g.calls.length = 1)
  | ended (coroutine : g.coroutine = .ended)

theorem completedOnce_nil {g : async_get endpoint_t} (h : g.calls = []) : CompletedOnce g :=
  ⟨by simp [h], by simp [h]⟩

theorem enter_located {g : async_get endpoint_t} (h : Located g) : Located g.enter := by
  unfold async_get.enter
  rcases h with ⟨hco, hcalls, hwhole, hopen⟩ | ⟨hco, hpooled, hcalls, hwhole⟩ | ⟨hco, hpooled, hcalls⟩ | hco
  · simp only [hco]
    cases hp : g.pooled with
    | true =>
      rw [if_pos (hopen.trans hp)]
      exact .pooled rfl hp (by simp [async_get.wake_up, hcalls])
    | false =>
      rw [if_neg (by simp [hopen, hp])]
      exact .fresh rfl hp hcalls hwhole
  · simp only [hco]
    exact .fresh hco hpooled hcalls hwhole
  · simp only [hco]
    exact .pooled hco hpooled hcalls
  · simp only [hco]
    exact .ended hco

theorem enter_once {g : async_get endpoint_t} (h : Located g) (honce : CompletedOnce g) : CompletedOnce g.enter := by
  unfold async_get.enter
  rcases h with ⟨hco, hcalls, hwhole, -⟩ | ⟨hco, -, -, -⟩ | ⟨hco, -, -⟩ | hco
  · simp only [hco]
    split
    · exact ⟨by simp [async_get.wake_up, hcalls], by simp [async_get.wake_up, hcalls, hwhole]⟩
    · exact completedOnce_nil hcalls
  all_goals simpa only [hco] using honce

theorem race_over_located {g : async_get endpoint_t} (winner : race) (h : Located g) :
    Located (g.race_over winner) := by
  unfold async_get.race_over
  split
  · exact .ended rfl
  · exact h

theorem cancel_located {g : async_get endpoint_t} (h : Located g) : Located g.cancel := by
  unfold async_get.cancel
  split
  · exact .ended rfl
  · exact h

theorem cancel_once {g : async_get endpoint_t} (h : CompletedOnce g) : CompletedOnce g.cancel := by
  unfold async_get.cancel
  split
  · exact ⟨h.once, h.whole⟩
  · exact h

@[simp] theorem connect_calls (g : async_get endpoint_t) (winner : race) : (g.connect winner).calls = g.calls := by
  unfold async_get.connect
  split <;> rfl

theorem connect_whole {g : async_get endpoint_t} (winner : race) (h : g.sess.moved_from = false) :
    (g.connect winner).sess.moved_from = false := by
  rw [async_get.connect, if_neg (by simp [h])]
  rfl

theorem race_over_once_iff {g : async_get endpoint_t} (winner : race) (h : Located g) (honce : CompletedOnce g) :
    CompletedOnce (g.race_over winner) ↔ (g.coroutine = .connecting → g.pooled = false) := by
  unfold async_get.race_over
  rcases h with ⟨hco, -, -, -⟩ | ⟨hco, hpooled, hcalls, hwhole⟩ | ⟨hco, hpooled, hcalls⟩ | hco
  · simp [hco, honce]
  · simp only [hco, hpooled, implies_true, iff_true]
    exact ⟨by simp [async_get.wake_up, hcalls],
      by simp [async_get.wake_up, hcalls, connect_whole winner hwhole]⟩
  · simp only [hco, hpooled, true_implies, Bool.true_eq_false, iff_false]
    intro htwice
    have hlength := htwice.once
    simp [async_get.wake_up, hcalls] at hlength
  · simp [hco, honce]

/-! ## Runs -/

theorem forall_mem_modify_iff {α : Type} {P : α → Prop} {l : List α} (h : ∀ a ∈ l, P a) (i : ℕ) (f : α → α) :
    (∀ a ∈ l.modify i f, P a) ↔ ∀ a, l[i]? = some a → P (f a) := by
  constructor
  · intro hall a ha
    refine hall (f a) (List.mem_of_getElem? (i := i) ?_)
    simp [ha]
  · intro hi a ha
    obtain ⟨j, hj⟩ := List.mem_iff_getElem?.mp ha
    rw [List.getElem?_modify] at hj
    cases hl : l[j]? with
    | none => simp [hl] at hj
    | some b =>
      rw [hl] at hj
      by_cases hij : i = j
      · subst hij
        obtain rfl : f b = a := by simpa using hj
        exact hi b hl
      · obtain rfl : b = a := by simpa [hij] using hj
        exact h b (List.mem_of_getElem? hl)

section

variable [LinearOrder endpoint_t]

/-- Every socket in the pool is open, and every coroutine is where it can be. -/
structure Coherent (s : session_pool endpoint_t) : Prop where
  is_open : ∀ e ∈ s.m_sock_map.entries, e.2.is_open = true
  located : ∀ g ∈ s.gets, Located g

theorem Coherent.init : Coherent (.init : session_pool endpoint_t) :=
  ⟨fun _ he => absurd he List.not_mem_nil, fun _ hg => absurd hg List.not_mem_nil⟩

theorem Coherent.emplace {s : session_pool endpoint_t} (h : Coherent s) (socket : socket_t endpoint_t) :
    Coherent (s.emplace socket) := by
  unfold session_pool.emplace
  split
  · rename_i hopen
    split
    · refine ⟨fun e he => ?_, h.located⟩
      rcases OrderedMap.mem_emplace _ _ _ e he with rfl | hold
      · exact hopen
      · exact h.is_open e hold
    · exact h
  · exact h

theorem Coherent.take {s : session_pool endpoint_t} (h : Coherent s) (ep : endpoint_t) : Coherent (s.take ep).2 := by
  unfold session_pool.take
  split
  · exact h
  · exact ⟨fun e he => h.is_open e (List.mem_of_mem_filter he), h.located⟩

theorem take_gets (s : session_pool endpoint_t) (ep : endpoint_t) : (s.take ep).2.gets = s.gets := by
  unfold session_pool.take
  split <;> rfl

theorem take_session {s : session_pool endpoint_t} (h : Coherent s) (ep : endpoint_t) :
    (s.take ep).1.moved_from = false ∧ (s.take ep).1.m_socket.is_open = (s.m_sock_map.find ep).isSome := by
  unfold session_pool.take
  cases hfind : s.m_sock_map.find ep with
  | none => exact ⟨rfl, rfl⟩
  | some socket =>
    obtain ⟨e, he, rfl⟩ := Option.map_eq_some_iff.mp hfind
    exact ⟨rfl, h.is_open e (List.mem_of_find?_eq_some he)⟩

theorem emplace_gets (s : session_pool endpoint_t) (socket : socket_t endpoint_t) :
    (s.emplace socket).gets = s.gets := by
  unfold session_pool.emplace
  split
  · split <;> rfl
  · rfl

theorem forall_mem_get {P : async_get endpoint_t → Prop} {s : session_pool endpoint_t} (h : ∀ g ∈ s.gets, P g)
    (ep : endpoint_t) (hnew : P ⟨ep, (s.m_sock_map.find ep).isSome, (s.take ep).1, .spawned, []⟩) :
    ∀ g ∈ (s.get ep).gets, P g := by
  intro g hg
  rcases List.mem_append.mp hg with hold | hlast
  · exact h g (by rwa [← take_gets s ep])
  · obtain rfl := List.mem_singleton.mp hlast
    exact hnew

theorem Coherent.get {s : session_pool endpoint_t} (h : Coherent s) (ep : endpoint_t) : Coherent (s.get ep) := by
  obtain ⟨hwhole, hopen⟩ := take_session h ep
  exact ⟨(h.take ep).is_open, forall_mem_get h.located ep (.spawned rfl rfl hwhole hopen)⟩

theorem Coherent.modify {s : session_pool endpoint_t} (h : Coherent s) (i : ℕ)
    {f : async_get endpoint_t → async_get endpoint_t} (hf : ∀ g, Located g → Located (f g)) :
    Coherent { s with gets := s.gets.modify i f } :=
  ⟨h.is_open, (forall_mem_modify_iff h.located i f).mpr fun g hg => hf g (h.located g (List.mem_of_getElem? hg))⟩

theorem coherent_step (s : session_pool endpoint_t) (event : pool_event endpoint_t) (h : Coherent s) :
    Coherent (s.step event) := by
  cases event with
  | emplace socket => exact h.emplace socket
  | get_sync ep => exact h.take ep
  | get ep => exact h.get ep
  | entered i => exact h.modify i fun g hg => enter_located hg
  | race_over i winner => exact h.modify i fun g hg => race_over_located winner hg
  | cancelled i => exact h.modify i fun g hg => cancel_located hg

theorem step_once_iff (s : session_pool endpoint_t) (event : pool_event endpoint_t) (h : Coherent s)
    (honce : AllCompletedOnce s) : AllCompletedOnce (s.step event) ↔ NoPooledRace s event := by
  have hlocated {i : ℕ} {g : async_get endpoint_t} (hg : s.gets[i]? = some g) : Located g :=
    h.located g (List.mem_of_getElem? hg)
  have hcalled {i : ℕ} {g : async_get endpoint_t} (hg : s.gets[i]? = some g) : CompletedOnce g :=
    honce g (List.mem_of_getElem? hg)
  cases event with
  | emplace socket =>
    refine iff_of_true ?_ trivial
    intro g hg
    exact honce g (by rwa [← emplace_gets s socket])
  | get_sync ep =>
    refine iff_of_true ?_ trivial
    intro g hg
    exact honce g (by rwa [← take_gets s ep])
  | get ep => exact iff_of_true (forall_mem_get honce ep (completedOnce_nil rfl)) trivial
  | entered i =>
    exact iff_of_true ((forall_mem_modify_iff honce i _).mpr fun g hg => enter_once (hlocated hg) (hcalled hg)) trivial
  | race_over i winner =>
    refine (forall_mem_modify_iff honce i _).trans ?_
    exact forall₂_congr fun g hg => race_over_once_iff winner (hlocated hg) (hcalled hg)
  | cancelled i =>
    exact iff_of_true ((forall_mem_modify_iff honce i _).mpr fun g hg => cancel_once (hcalled hg)) trivial

/-- **When every get completes once.** It does in all states of a run if and only if no step of the run ends the race of
a get that had found a socket in the pool. -/
theorem gets_complete_once_iff (events : List (pool_event endpoint_t)) :
    Throughout session_pool.step AllCompletedOnce .init events ↔
      Guarded session_pool.step NoPooledRace .init events :=
  throughout_iff_guarded (fun s event h _ _ => coherent_step s event h) step_once_iff .init events .init
    fun _ hg => absurd hg List.not_mem_nil

/-- A `get` finds no socket in the pool. -/
def MissesPool (s : session_pool endpoint_t) : pool_event endpoint_t → Prop
  | .get ep => s.m_sock_map.find ep = none
  | _ => True

def NonePooled (s : session_pool endpoint_t) : Prop := ∀ g ∈ s.gets, g.pooled = false

theorem nonePooled_step (s : session_pool endpoint_t) (event : pool_event endpoint_t) (h : NonePooled s)
    (hmiss : MissesPool s event) : NonePooled (s.step event) := by
  have hmodify (i : ℕ) {f : async_get endpoint_t → async_get endpoint_t} (hf : ∀ g, (f g).pooled = g.pooled) :
      NonePooled { s with gets := s.gets.modify i f } :=
    (forall_mem_modify_iff h i f).mpr fun g hg => (hf g).trans (h g (List.mem_of_getElem? hg))
  cases event with
  | emplace socket =>
    intro g hg
    exact h g (by rwa [← emplace_gets s socket])
  | get_sync ep =>
    intro g hg
    exact h g (by rwa [← take_gets s ep])
  | get ep => exact forall_mem_get h ep (Option.isSome_eq_false_iff.mpr (Option.isNone_iff_eq_none.mpr hmiss))
  | entered i =>
    refine hmodify i fun g => ?_
    unfold async_get.enter
    split
    · split <;> rfl
    · rfl
  | race_over i winner =>
    refine hmodify i fun g => ?_
    unfold async_get.race_over async_get.connect
    split
    · split <;> rfl
    · rfl
  | cancelled i =>
    refine hmodify i fun g => ?_
    unfold async_get.cancel
    split <;> rfl

theorem missing_gets_complete_once (events : List (pool_event endpoint_t))
    (h : Guarded session_pool.step MissesPool .init events) :
    Throughout session_pool.step AllCompletedOnce .init events := by
  have hinv : Throughout session_pool.step (fun s => Coherent s ∧ NonePooled s ∧ AllCompletedOnce s) .init events := by
    refine throughout_of_inv (G := MissesPool) ?_ .init events ⟨.init, ?_, ?_⟩ h
    · rintro s event ⟨hcoherent, hnone, honce⟩ hmiss
      have hrace : NoPooledRace s event := by
        cases event with
        | race_over i winner => exact fun g hg _ => hnone g (List.mem_of_getElem? hg)
        | _ => trivial
      exact ⟨coherent_step s event hcoherent, nonePooled_step s event hnone hmiss,
        (step_once_iff s event hcoherent honce).mpr hrace⟩
    · exact fun _ hg => absurd hg List.not_mem_nil
    · exact fun _ hg => absurd hg List.not_mem_nil
  exact hinv.mono fun s hs => hs.2.2

end

theorem pooled_get_completes_twice :
    ¬ Throughout session_pool.step AllCompletedOnce (.init : session_pool ℕ)
      [.emplace ⟨true, some 80⟩, .get 80, .entered 0, .race_over 0 (.refused ⟨.system, 106⟩)] := by
  intro hall
  have honce := (hall.last _ (List.mem_singleton.mpr rfl)).once
  revert honce
  decide

end Libgs.Client
