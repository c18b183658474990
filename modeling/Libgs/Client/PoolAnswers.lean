import Libgs.Client.SessionPool

/-!
# What the pool answers

What the map holds for an endpoint follows from the events of this endpoint alone, and what it holds is handed out once.
-/

namespace Libgs.Client

open Lib

variable {endpoint_t : Type}

/-! ## The events of an endpoint -/

/-- An open socket with its peer -/
def connected (ep : endpoint_t) : socket_t endpoint_t := ⟨true, some ep⟩

section

variable [LinearOrder endpoint_t]

/-- The event puts a socket of the endpoint into the pool. -/
def puts (ep : endpoint_t) : pool_event endpoint_t → Bool
  | .emplace socket => socket = connected ep
  | _ => false

/-- The event asks the pool for a socket of the endpoint. -/
def asks (ep : endpoint_t) : pool_event endpoint_t → Bool
  | .get_sync ep' => ep' = ep
  | .get ep' => ep' = ep
  | _ => false

/-- A socket was put in for the endpoint, which was not asked for since. -/
def Waiting (ep : endpoint_t) (events : List (pool_event endpoint_t)) : Prop :=
  ∃ before event after, events = before ++ event :: after ∧ puts ep event = true ∧ ∀ e ∈ after, asks ep e = false

theorem not_waiting_nil (ep : endpoint_t) : ¬ Waiting ep [] := by
  rintro ⟨before, event, after, hsplit, -, -⟩
  simp at hsplit

theorem waiting_concat_iff (ep : endpoint_t) (events : List (pool_event endpoint_t)) (event : pool_event endpoint_t) :
    Waiting ep (events ++ [event]) ↔ puts ep event = true ∨ (asks ep event = false ∧ Waiting ep events) := by
  constructor
  · rintro ⟨before, put, after, hsplit, hput, hafter⟩
    rcases List.eq_nil_or_concat after with rfl | ⟨after, last, rfl⟩
    · obtain ⟨-, hlast⟩ := List.append_inj' hsplit rfl
      obtain rfl : event = put := by simpa using hlast
      exact .inl hput
    · have hinit : events ++ [event] = before ++ put :: after ++ [last] := by simpa using hsplit
      obtain ⟨rfl, hlast⟩ := List.append_inj' hinit rfl
      obtain rfl : event = last := by simpa using hlast
      exact .inr ⟨hafter event (by simp), before, put, after, rfl, hput, fun e he => hafter e (by simp [he])⟩
  · rintro (hput | ⟨hask, before, put, after, rfl, hput, hafter⟩)
    · exact ⟨events, event, [], rfl, hput, by simp⟩
    · refine ⟨before, put, after ++ [event], by simp, hput, fun e he => ?_⟩
      rcases List.mem_append.mp he with he | he
      · exact hafter e he
      · rw [List.mem_singleton.mp he]
        exact hask

/-! ## What the map holds -/

theorem emplace_find (s : session_pool endpoint_t) (socket : socket_t endpoint_t) (ep : endpoint_t) :
    (s.emplace socket).m_sock_map.find ep =
      if socket = connected ep then some ((s.m_sock_map.find ep).getD socket) else s.m_sock_map.find ep := by
  obtain ⟨is_open, remote⟩ := socket
  unfold session_pool.emplace connected
  cases is_open with
  | false => simp
  | true =>
    cases remote with
    | none => simp
    | some ep' =>
      by_cases hep : ep' = ep
      · subst hep
        simp [OrderedMap.emplace, OrderedMap.find_alter_self]
      · rw [if_pos rfl, if_neg (by simpa using hep)]
        exact OrderedMap.find_alter_ne _ _ _ _ (Ne.symm hep)

theorem take_find (s : session_pool endpoint_t) (ep ep' : endpoint_t) :
    (s.take ep').2.m_sock_map.find ep = if ep' = ep then none else s.m_sock_map.find ep := by
  unfold session_pool.take
  by_cases hep : ep' = ep
  · subst hep
    rw [if_pos rfl]
    split
    · assumption
    · exact OrderedMap.find_erase_self _ _
  · rw [if_neg hep]
    split
    · rfl
    · exact OrderedMap.find_erase_ne _ _ _ (Ne.symm hep)

theorem step_find (s : session_pool endpoint_t) (event : pool_event endpoint_t) (ep : endpoint_t) :
    (s.step event).m_sock_map.find ep =
      if puts ep event then some ((s.m_sock_map.find ep).getD (connected ep))
      else if asks ep event then none else s.m_sock_map.find ep := by
  cases event with
  | emplace socket =>
    simp only [session_pool.step, emplace_find, puts, asks, decide_eq_true_eq, Bool.false_eq_true, if_false]
    by_cases hput : socket = connected ep
    · rw [if_pos hput, if_pos hput, hput]
    · rw [if_neg hput, if_neg hput]
  | get_sync ep' => simpa [session_pool.step, puts, asks] using take_find s ep ep'
  | get ep' => simpa [session_pool.step, session_pool.get, puts, asks] using take_find s ep ep'
  | entered i => rfl
  | race_over i winner => rfl
  | cancelled i => rfl

theorem run_find (events : List (pool_event endpoint_t)) (ep : endpoint_t) :
    ((run session_pool.step .init events).m_sock_map.find ep).isSome = true ↔ Waiting ep events := by
  induction events using List.reverseRecOn with
  | nil => exact iff_of_false (by simp [session_pool.init, OrderedMap.empty, OrderedMap.find]) (not_waiting_nil ep)
  | append_singleton events event ih =>
    rw [run_append, run_cons, run_nil, step_find, waiting_concat_iff, ← ih]
    cases puts ep event with
    | true => simp
    | false => cases asks ep event <;> simp

end

/-! ## What a get asked for and found -/

/-- What was asked for, and whether the pool had it -/
def async_get.origin (g : async_get endpoint_t) : endpoint_t × Bool := (g.ep, g.pooled)

@[simp] theorem enter_origin (g : async_get endpoint_t) : g.enter.origin = g.origin := by
  unfold async_get.enter
  split
  · split <;> rfl
  · rfl

@[simp] theorem connect_origin (g : async_get endpoint_t) (winner : race) : (g.connect winner).origin = g.origin := by
  unfold async_get.connect
  split <;> rfl

@[simp] theorem race_over_origin (g : async_get endpoint_t) (winner : race) :
    (g.race_over winner).origin = g.origin := by
  unfold async_get.race_over
  split
  · exact connect_origin g winner
  · rfl

@[simp] theorem cancel_origin (g : async_get endpoint_t) : g.cancel.origin = g.origin := by
  unfold async_get.cancel
  split <;> rfl

theorem origins_modify (gets : List (async_get endpoint_t)) (i : ℕ)
    {f : async_get endpoint_t → async_get endpoint_t} (hf : ∀ g, (f g).origin = g.origin) :
    (gets.modify i f).map async_get.origin = gets.map async_get.origin := by
  refine List.ext_getElem? fun j => ?_
  rw [List.getElem?_map, List.getElem?_map, List.getElem?_modify]
  split <;> cases gets[j]? <;> simp [hf]

/-! ## What a get is answered with -/

/-- The answer with a socket of the pool -/
def served (ep : endpoint_t) : completion endpoint_t := ⟨none, .init (connected ep)⟩

/-- The coroutine begins with what the pool had for the endpoint, and this is the answer as soon as it has begun. -/
structure Rightful (g : async_get endpoint_t) : Prop where
  found : g.coroutine = .spawned → g.sess = .init (if g.pooled then connected g.ep else .init)
  prompt : g.coroutine ≠ .spawned → g.pooled = true → served g.ep ∈ g.calls
  answered : ∀ c ∈ g.calls, c.error = none → c.sess.moved_from = false → c.sess.m_socket = connected g.ep

theorem Rightful.enter {g : async_get endpoint_t} (h : Rightful g) : Rightful g.enter := by
  unfold async_get.enter
  split
  · rename_i hco
    have hsess := h.found hco
    cases hp : g.pooled with
    | false =>
      rw [hp, if_neg (by simp)] at hsess
      rw [if_neg (by simp [hsess, session_t.init, socket_t.init])]
      exact ⟨nofun, by simp [hp], h.answered⟩
    | true =>
      rw [hp, if_pos rfl] at hsess
      rw [if_pos (by simp [hsess, session_t.init, connected])]
      refine ⟨nofun, fun _ _ => ?_, fun c hc => ?_⟩
      · exact List.mem_append_right _ (by simp [served, hsess, async_get.wake_up])
      · rcases List.mem_append.mp hc with hc | hc
        · exact h.answered c hc
        · rw [List.mem_singleton.mp hc, hsess]
          exact fun _ _ => rfl
  · exact h

theorem race_error_none {winner : race} (h : winner.error = none) : winner = .connected := by
  cases winner with
  | connected => rfl
  | refused error => simp [race.error] at h
  | expired error => simp [race.error] at h

theorem connect_session {g : async_get endpoint_t} {winner : race} (herr : winner.error = none)
    (h : (g.connect winner).sess.moved_from = false) : (g.connect winner).sess.m_socket = connected g.ep := by
  unfold async_get.connect at h ⊢
  split at h
  · -- The helper went with the session that was handed over.
    simp_all
  · rename_i hmoved
    rw [if_neg hmoved, race_error_none herr]
    rfl

theorem Rightful.race_over {g : async_get endpoint_t} (winner : race) (h : Rightful g) :
    Rightful (g.race_over winner) := by
  have hep : (g.connect winner).ep = g.ep := congrArg Prod.fst (connect_origin g winner)
  have hpooled : (g.connect winner).pooled = g.pooled := congrArg Prod.snd (connect_origin g winner)
  unfold async_get.race_over
  split
  · rename_i hco
    refine ⟨nofun, fun _ hp => List.mem_append_left _ ?_, fun c hc => ?_⟩
    · rw [connect_calls]
      show served (g.connect winner).ep ∈ g.calls
      rw [hep]
      exact h.prompt (by simp [hco]) (hpooled ▸ hp)
    · show c.error = none → c.sess.moved_from = false → c.sess.m_socket = connected (g.connect winner).ep
      rw [hep]
      rcases List.mem_append.mp hc with hc | hc
      · exact h.answered c (by rwa [connect_calls] at hc)
      · rw [List.mem_singleton.mp hc]
        exact connect_session
  · exact h

theorem Rightful.cancel {g : async_get endpoint_t} (h : Rightful g) : Rightful g.cancel := by
  unfold async_get.cancel
  split
  · rename_i hco
    exact ⟨nofun, fun _ => h.prompt (by simp [hco]), h.answered⟩
  · exact h

section

variable [LinearOrder endpoint_t]

/-- Sockets stand under their peers, and gets are served with them. -/
structure Fitting (s : session_pool endpoint_t) : Prop where
  filed : ∀ ep socket, s.m_sock_map.find ep = some socket → socket = connected ep
  rightful : ∀ g ∈ s.gets, Rightful g

theorem Fitting.init : Fitting (.init : session_pool endpoint_t) :=
  ⟨by simp [session_pool.init, OrderedMap.empty, OrderedMap.find], fun _ hg => absurd hg List.not_mem_nil⟩

theorem Fitting.step_filed {s : session_pool endpoint_t} (h : Fitting s) (event : pool_event endpoint_t)
    (ep : endpoint_t) (socket : socket_t endpoint_t) (hfind : (s.step event).m_sock_map.find ep = some socket) :
    socket = connected ep := by
  rw [step_find] at hfind
  split at hfind
  · cases hold : s.m_sock_map.find ep with
    | none => simpa [hold] using hfind.symm
    | some old =>
      obtain rfl : old = socket := by simpa [hold] using hfind
      exact h.filed ep old hold
  · split at hfind
    · simp at hfind
    · exact h.filed ep socket hfind

theorem Fitting.asked {s : session_pool endpoint_t} (h : Fitting s) (ep : endpoint_t) :
    Rightful (⟨ep, (s.m_sock_map.find ep).isSome, (s.take ep).1, .spawned, []⟩ : async_get endpoint_t) := by
  refine ⟨fun _ => ?_, nofun, by simp⟩
  unfold session_pool.take
  cases hfind : s.m_sock_map.find ep with
  | none => rfl
  | some socket => exact congrArg session_t.init (h.filed ep socket hfind)

theorem fitting_step (s : session_pool endpoint_t) (event : pool_event endpoint_t) (h : Fitting s) :
    Fitting (s.step event) := by
  refine ⟨h.step_filed event, ?_⟩
  have hmodify (i : ℕ) {f : async_get endpoint_t → async_get endpoint_t} (hf : ∀ g, Rightful g → Rightful (f g)) :
      ∀ g ∈ s.gets.modify i f, Rightful g :=
    (forall_mem_modify_iff h.rightful i f).mpr fun g hg => hf g (h.rightful g (List.mem_of_getElem? hg))
  cases event with
  | emplace socket => exact (emplace_gets s socket).symm ▸ h.rightful
  | get_sync ep => exact (take_gets s ep).symm ▸ h.rightful
  | get ep => exact forall_mem_get h.rightful ep (h.asked ep)
  | entered i => exact hmodify i fun g hg => hg.enter
  | race_over i winner => exact hmodify i fun g hg => hg.race_over winner
  | cancelled i => exact hmodify i fun g hg => hg.cancel

/-! ## Runs -/

/-- The get that an event begins -/
def begun (s : session_pool endpoint_t) : pool_event endpoint_t → List (endpoint_t × Bool)
  | .get ep => [(ep, (s.m_sock_map.find ep).isSome)]
  | _ => []

theorem step_origins (s : session_pool endpoint_t) (event : pool_event endpoint_t) :
    (s.step event).gets.map async_get.origin = s.gets.map async_get.origin ++ begun s event := by
  cases event with
  | emplace socket => simp [session_pool.step, begun, emplace_gets]
  | get_sync ep => simp [session_pool.step, begun, take_gets]
  | get ep => simp [session_pool.step, session_pool.get, begun, take_gets, async_get.origin]
  | entered i => simpa [session_pool.step, begun] using origins_modify s.gets i enter_origin
  | race_over i winner =>
    simpa [session_pool.step, begun] using origins_modify s.gets i fun g => race_over_origin g winner
  | cancelled i => simpa [session_pool.step, begun] using origins_modify s.gets i cancel_origin

theorem run_origins (s : session_pool endpoint_t) (events : List (pool_event endpoint_t)) :
    s.gets.map async_get.origin <+: (run session_pool.step s events).gets.map async_get.origin := by
  induction events generalizing s with
  | nil => exact List.prefix_refl _
  | cons event events ih =>
    refine List.IsPrefix.trans ?_ (ih (s.step event))
    rw [step_origins]
    exact List.prefix_append _ _

/-- **What a get is answered with.** A get finds a socket if and only if one was put in for its endpoint that was not
asked for since, and is answered with it as soon as its coroutine has begun. Whatever happens then, a session that it
hands over without an error is connected to this endpoint. -/
theorem get_served (before after : List (pool_event endpoint_t)) (ep : endpoint_t) :
    ∃ g, (run session_pool.step .init (before ++ .get ep :: after)).gets[
        (run session_pool.step .init before).gets.length]? = some g ∧
      (g.pooled = true ↔ Waiting ep before) ∧ (g.coroutine ≠ .spawned → Waiting ep before → served ep ∈ g.calls) ∧
      ∀ c ∈ g.calls, c.error = none → c.sess.moved_from = false → c.sess.m_socket = connected ep := by
  have hfitting := (throughout_of_step fitting_step .init (before ++ .get ep :: after) .init).last
  have hfound := run_find before ep
  rw [run_append, run_cons] at hfitting ⊢
  generalize run session_pool.step .init before = s at hfitting hfound ⊢
  obtain ⟨more, hmore⟩ := run_origins (s.step (.get ep)) after
  generalize run session_pool.step (s.step (.get ep)) after = s' at hfitting hmore ⊢
  rw [step_origins] at hmore
  have hplace : (s'.gets.map async_get.origin)[s.gets.length]? = some (ep, (s.m_sock_map.find ep).isSome) := by
    rw [← hmore, begun]
    simp
  rw [List.getElem?_map] at hplace
  obtain ⟨g, hg, horigin⟩ := Option.map_eq_some_iff.mp hplace
  obtain ⟨rfl, hpooled⟩ := Prod.mk.injEq .. ▸ horigin
  have hrightful := hfitting.rightful g (List.mem_of_getElem? hg)
  rw [← hpooled] at hfound
  exact ⟨g, hg, hfound, fun hco hwaiting => hrightful.prompt hco (hfound.mpr hwaiting), hrightful.answered⟩

theorem step_handed_out (s : session_pool endpoint_t) (event : pool_event endpoint_t) (ep : endpoint_t) :
    (begun s event).count (ep, true) + ((s.step event).m_sock_map.find ep).isSome.toNat ≤
      (s.m_sock_map.find ep).isSome.toNat + (puts ep event).toNat := by
  rw [step_find]
  cases event with
  | emplace socket =>
    simp only [begun, List.count_nil, asks, Bool.false_eq_true, if_false]
    cases puts ep (.emplace socket) with
    | true => simp
    | false => simp
  | get_sync ep' =>
    simp only [begun, List.count_nil, puts, Bool.false_eq_true, if_false]
    split <;> simp
  | get ep' =>
    simp only [begun, List.count_singleton, puts, asks, Bool.false_eq_true, if_false, decide_eq_true_eq]
    by_cases hep : ep' = ep
    · subst hep
      cases (s.m_sock_map.find ep').isSome <;> simp
    · simp [hep]
  | _ => simp [begun, puts, asks]

/-- **No socket is handed out twice.** No more gets find a socket for an endpoint than sockets were put in for it. -/
theorem handed_out_le (events : List (pool_event endpoint_t)) (ep : endpoint_t) :
    ((run session_pool.step .init events).gets.map async_get.origin).count (ep, true) ≤ events.countP (puts ep) := by
  have hbooks : ((run session_pool.step .init events).gets.map async_get.origin).count (ep, true) +
      ((run session_pool.step .init events).m_sock_map.find ep).isSome.toNat ≤ events.countP (puts ep) := by
    induction events using List.reverseRecOn with
    | nil => simp [session_pool.init, OrderedMap.empty, OrderedMap.find]
    | append_singleton events event ih =>
      have hstep := step_handed_out (run session_pool.step .init events) event ep
      rw [run_append, run_cons, run_nil, step_origins, List.count_append, List.countP_append, List.countP_singleton]
      cases hput : puts ep event <;> simp only [hput, Bool.toNat_true, Bool.toNat_false] at hstep ⊢ <;> simp <;> omega
  omega

end

end Libgs.Client
