import BeeRpc.Control
import BeeRpc.Interleaving.Run
import Mathlib.Data.List.Nodup

namespace BeeRpc

open Wire Interleaving

-- Where the parsing thread is in `request_skip`.
inductive RequestAt where
  | returned
  -- has queued a request, will set the event
  | setting
  deriving Repr, DecidableEq

-- Where the sending thread is in `pending_outbound` or `next_outbound`.
inductive SendAt where
  | returned
  -- pending_outbound has emptied the queue, will clear the event
  | draining (out : List Buffer)
  -- the wait of next_outbound has returned True
  | woken
  -- next_outbound has taken the last Buffer, will clear the event, still in the lock
  | taking (buffer : Buffer)
  -- next_outbound has found the queue empty, will clear the event
  | missing
  deriving Repr, DecidableEq

-- A StreamControl as its two threads use it. `asked` keeps the order of the requests, and
-- `handed` is what the calls of the sending thread have returned.
structure StreamControl where
  enabled : Bool
  asked : List BlockId := []
  outbound : List Buffer := []
  outboundReady : Bool := false
  parser : RequestAt := .returned
  sender : SendAt := .returned
  handed : List Buffer := []
  deriving Repr, DecidableEq

-- A step of one of the threads: the first one of a call, or the next one of the call that
-- it is in.
inductive Turn where
  | requestSkip (id : BlockId)
  | parserGoesOn
  | pendingOutbound
  | nextOutbound
  | senderGoesOn
  deriving Repr, DecidableEq

def Turn.asks : Turn → List BlockId
  | .requestSkip id => if id.isEmpty then [] else [id]
  | _ => []

namespace StreamControl

section

variable (env : Enviroment) (s : StreamControl)

def inLock : Bool :=
  match s.sender with
  | .taking _ => true
  | _ => false

-- request_skip, to the end of the section that the lock guards.
def requestSkip (id : BlockId) : Option StreamControl :=
  match s.parser with
  | .setting => none
  | .returned =>
      if !s.enabled || id.isEmpty then some s
      else if s.inLock then none
      else if id ∈ s.asked then some s
      else some { s with
        asked := s.asked ++ [id]
        outbound := s.outbound ++ [skipBuffer env id]
        parser := .setting }

def parserGoesOn : Option StreamControl :=
  match s.parser with
  | .returned => none
  | .setting => some { s with outboundReady := true, parser := .returned }

def pendingOutbound : Option StreamControl :=
  match s.sender with
  | .returned =>
      if !s.enabled || s.outbound.isEmpty then some s
      else some { s with outbound := [], sender := .draining s.outbound }
  | _ => none

-- The wait ends at once where the event is set, else the call times out.
def nextOutbound : Option StreamControl :=
  match s.sender with
  | .returned =>
      if s.enabled && s.outboundReady then some { s with sender := .woken } else some s
  | _ => none

def senderGoesOn : Option StreamControl :=
  match s.sender with
  | .returned => none
  | .draining out =>
      some { s with outboundReady := false, sender := .returned, handed := s.handed ++ out }
  | .woken =>
      match s.outbound with
      | [] => some { s with sender := .missing }
      | buffer :: rest =>
          if rest.isEmpty then some { s with outbound := rest, sender := .taking buffer }
          else some { s with
            outbound := rest
            sender := .returned
            handed := s.handed ++ [buffer] }
  | .taking buffer =>
      some { s with outboundReady := false, sender := .returned, handed := s.handed ++ [buffer] }
  | .missing => some { s with outboundReady := false, sender := .returned }

end

-- One step of the thread whose turn it is.
def step (env : Enviroment) (s : StreamControl) : Turn → Option StreamControl
  | .requestSkip id => s.requestSkip env id
  | .parserGoesOn => s.parserGoesOn
  | .pendingOutbound => s.pendingOutbound
  | .nextOutbound => s.nextOutbound
  | .senderGoesOn => s.senderGoesOn

-- The ids that request_skip has been called with, less the empty ones.
def requested (schedule : List Turn) : List BlockId := schedule.flatMap Turn.asks

-- Outside all calls, what is queued is announced by the event.
def Announced (s : StreamControl) : Prop :=
  s.parser = .returned → s.sender = .returned → s.outbound ≠ [] → s.outboundReady = true

-- The sending thread is about to clear the event, and not in the lock.
def clearsOutside (s : StreamControl) : Bool :=
  match s.sender with
  | .draining _ => true
  | .missing => true
  | _ => false

-- Where the event is cleared outside the lock, nothing is queued, unless the thread that
-- has queued it is still to set the event.
def Meets (s : StreamControl) (t : Turn) : Prop :=
  t = .senderGoesOn → s.clearsOutside = true → s.outbound = [] ∨ s.parser = .setting

instance (s : StreamControl) (t : Turn) : Decidable (s.Meets t) := inferInstanceAs (Decidable (_ → _))

-- What the sending thread holds in its hands.
def inHand (s : StreamControl) : List Buffer :=
  match s.sender with
  | .draining out => out
  | .taking buffer => [buffer]
  | _ => []

-- Every request is in one place, and all of them in the order of the calls.
structure Ordered (env : Enviroment) (past : List Turn) (s : StreamControl) : Prop where
  asked : s.enabled = true → s.asked = (requested past).eraseDups
  places : s.handed ++ s.inHand ++ s.outbound = s.asked.map (skipBuffer env)
  nodup : s.asked.Nodup
  disabled : s.enabled = false → s.asked = []

variable {env : Enviroment} {s : StreamControl}

theorem skipBuffer_injective (env : Enviroment) : Function.Injective (skipBuffer env) := by
  intro id other heq
  simpa [skipBuffer] using heq

theorem requested_concat (past : List Turn) (t : Turn) :
    requested (past ++ [t]) = requested past ++ t.asks := by
  simp [requested]

theorem eraseDups_concat_mem {ids : List BlockId} {id : BlockId} (hmem : id ∈ ids) :
    (ids ++ [id]).eraseDups = ids.eraseDups := by
  simp [List.eraseDups_append, List.removeAll, hmem]

theorem eraseDups_concat_new {ids : List BlockId} {id : BlockId} (hnew : id ∉ ids) :
    (ids ++ [id]).eraseDups = ids.eraseDups ++ [id] := by
  simp [List.eraseDups_append, List.removeAll, hnew, List.eraseDups_cons]

theorem ordered_start (enabled : Bool) : Ordered env [] { enabled := enabled } where
  asked _ := by simp [requested]
  places := by simp [inHand]
  nodup := List.nodup_nil
  disabled _ := rfl

-- A step that asks for nothing and only moves what is queued or handed out.
theorem Ordered.moved {past : List Turn} {s' : StreamControl} {t : Turn}
    (hordered : s.Ordered env past) (hasks : t.asks = []) (henabled : s'.enabled = s.enabled)
    (hasked : s'.asked = s.asked)
    (hplaces : s'.handed ++ s'.inHand ++ s'.outbound = s.handed ++ s.inHand ++ s.outbound) :
    s'.Ordered env (past ++ [t]) where
  asked := by
    rw [requested_concat, hasks, List.append_nil, henabled, hasked]
    exact hordered.asked
  places := by rw [hplaces, hasked, hordered.places]
  nodup := by
    rw [hasked]
    exact hordered.nodup
  disabled := by
    rw [henabled, hasked]
    exact hordered.disabled

theorem Ordered.requestSkip {past : List Turn} {s' : StreamControl} {id : BlockId}
    (hordered : s.Ordered env past) (hstep : s.requestSkip env id = some s') :
    s'.Ordered env (past ++ [.requestSkip id]) := by
  obtain ⟨hasked, hplaces, hnodup, hdisabled⟩ := hordered
  unfold StreamControl.requestSkip at hstep
  cases hat : s.parser with
  | setting => simp only [hat, reduceCtorEq] at hstep
  | returned =>
      simp only [hat] at hstep
      by_cases hskip : (!s.enabled || id.isEmpty) = true
      · rw [if_pos hskip, Option.some.injEq] at hstep
        subst hstep
        refine ⟨fun henabled => ?_, hplaces, hnodup, hdisabled⟩
        have hempty : id.isEmpty = true := by simpa [henabled] using hskip
        rw [requested_concat, Turn.asks, if_pos hempty, List.append_nil, hasked henabled]
      · obtain ⟨henabled, hid⟩ : s.enabled = true ∧ id.isEmpty = false := by simpa using hskip
        have hrequested : requested (past ++ [.requestSkip id]) = requested past ++ [id] := by
          rw [requested_concat, Turn.asks, if_neg (by rw [hid]; simp)]
        rw [if_neg hskip] at hstep
        by_cases hlock : s.inLock = true
        · rw [if_pos hlock] at hstep
          cases hstep
        · rw [if_neg hlock] at hstep
          by_cases hknown : id ∈ s.asked
          · rw [if_pos hknown, Option.some.injEq] at hstep
            subst hstep
            have hmem : id ∈ requested past := by
              rwa [hasked henabled, List.mem_eraseDups] at hknown
            refine ⟨fun _ => ?_, hplaces, hnodup, hdisabled⟩
            rw [hrequested, eraseDups_concat_mem hmem, hasked henabled]
          · rw [if_neg hknown, Option.some.injEq] at hstep
            subst hstep
            have hnew : id ∉ requested past := by
              rwa [hasked henabled, List.mem_eraseDups] at hknown
            refine ⟨fun _ => ?_, ?_, ?_, fun h => ?_⟩
            · rw [hrequested, eraseDups_concat_new hnew, ← hasked henabled]
            · show s.handed ++ s.inHand ++ (s.outbound ++ [skipBuffer env id]) = _
              rw [← List.append_assoc, hplaces, List.map_append]
              rfl
            · refine List.nodup_append.mpr ⟨hnodup, List.nodup_singleton id, ?_⟩
              intro other hother last hlast
              obtain rfl := List.mem_singleton.mp hlast
              rintro rfl
              exact hknown hother
            · rw [henabled] at h
              cases h

theorem Ordered.pendingOutbound {past : List Turn} {s' : StreamControl}
    (hordered : s.Ordered env past) (hstep : s.pendingOutbound = some s') :
    s'.Ordered env (past ++ [.pendingOutbound]) := by
  unfold StreamControl.pendingOutbound at hstep
  cases hat : s.sender with
  | returned =>
      simp only [hat] at hstep
      by_cases hskip : (!s.enabled || s.outbound.isEmpty) = true
      · rw [if_pos hskip, Option.some.injEq] at hstep
        subst hstep
        exact hordered.moved rfl rfl rfl rfl
      · rw [if_neg hskip, Option.some.injEq] at hstep
        subst hstep
        exact hordered.moved rfl rfl rfl (by simp [inHand, hat])
  | draining out => simp only [hat, reduceCtorEq] at hstep
  | woken => simp only [hat, reduceCtorEq] at hstep
  | taking buffer => simp only [hat, reduceCtorEq] at hstep
  | missing => simp only [hat, reduceCtorEq] at hstep

theorem Ordered.nextOutbound {past : List Turn} {s' : StreamControl}
    (hordered : s.Ordered env past) (hstep : s.nextOutbound = some s') :
    s'.Ordered env (past ++ [.nextOutbound]) := by
  unfold StreamControl.nextOutbound at hstep
  cases hat : s.sender with
  | returned =>
      simp only [hat] at hstep
      by_cases hready : (s.enabled && s.outboundReady) = true
      · rw [if_pos hready, Option.some.injEq] at hstep
        subst hstep
        exact hordered.moved rfl rfl rfl (by simp [inHand, hat])
      · rw [if_neg hready, Option.some.injEq] at hstep
        subst hstep
        exact hordered.moved rfl rfl rfl rfl
  | draining out => simp only [hat, reduceCtorEq] at hstep
  | woken => simp only [hat, reduceCtorEq] at hstep
  | taking buffer => simp only [hat, reduceCtorEq] at hstep
  | missing => simp only [hat, reduceCtorEq] at hstep

theorem Ordered.senderGoesOn {past : List Turn} {s' : StreamControl}
    (hordered : s.Ordered env past) (hstep : s.senderGoesOn = some s') :
    s'.Ordered env (past ++ [.senderGoesOn]) := by
  unfold StreamControl.senderGoesOn at hstep
  cases hat : s.sender with
  | returned => simp only [hat, reduceCtorEq] at hstep
  | draining out =>
      simp only [hat, Option.some.injEq] at hstep
      subst hstep
      exact hordered.moved rfl rfl rfl (by simp [inHand, hat])
  | woken =>
      simp only [hat] at hstep
      cases hqueue : s.outbound with
      | nil =>
          simp only [hqueue, Option.some.injEq] at hstep
          subst hstep
          exact hordered.moved rfl rfl rfl (by simp [inHand, hat, hqueue])
      | cons buffer rest =>
          simp only [hqueue] at hstep
          by_cases hlast : rest.isEmpty = true
          · rw [if_pos hlast, Option.some.injEq] at hstep
            subst hstep
            exact hordered.moved rfl rfl rfl (by simp [inHand, hat, hqueue])
          · rw [if_neg hlast, Option.some.injEq] at hstep
            subst hstep
            exact hordered.moved rfl rfl rfl (by simp [inHand, hat, hqueue])
  | taking buffer =>
      simp only [hat, Option.some.injEq] at hstep
      subst hstep
      exact hordered.moved rfl rfl rfl (by simp [inHand, hat])
  | missing =>
      simp only [hat, Option.some.injEq] at hstep
      subst hstep
      exact hordered.moved rfl rfl rfl (by simp [inHand, hat])

theorem ordered_run {enabled : Bool} {schedule : List Turn}
    (hrun : run (step env) { enabled := enabled } schedule = some s) : s.Ordered env schedule := by
  refine @history_run _ _ (step env) (fun past s => s.Ordered env past) ?_ schedule [] _ _
    (ordered_start enabled) hrun
  intro past s t s' hordered hstep
  cases t with
  | requestSkip id => exact hordered.requestSkip hstep
  | pendingOutbound => exact hordered.pendingOutbound hstep
  | nextOutbound => exact hordered.nextOutbound hstep
  | senderGoesOn => exact hordered.senderGoesOn hstep
  | parserGoesOn =>
      have hstep : s.parserGoesOn = some s' := hstep
      unfold StreamControl.parserGoesOn at hstep
      cases hat : s.parser with
      | returned => simp only [hat, reduceCtorEq] at hstep
      | setting =>
          simp only [hat, Option.some.injEq] at hstep
          subst hstep
          exact hordered.moved rfl rfl rfl rfl

-- What is handed out is what was asked for, in that order and each once.
theorem Ordered.handed {past : List Turn} (hordered : s.Ordered env past) :
    s.handed.Nodup ∧ s.handed <+: (requested past).eraseDups.map (skipBuffer env) := by
  have hfront : s.handed <+: s.asked.map (skipBuffer env) := by
    rw [← hordered.places, List.append_assoc]
    exact List.prefix_append _ _
  refine ⟨(hordered.nodup.map (skipBuffer_injective env)).sublist hfront.sublist, ?_⟩
  cases henabled : s.enabled with
  | true => rwa [← hordered.asked henabled]
  | false =>
      rw [hordered.disabled henabled] at hfront
      rw [List.prefix_nil.mp hfront]
      exact List.nil_prefix

-- What is queued is announced, or will be by the thread that has queued it; and the
-- event is cleared inside the lock only behind the last Buffer.
structure Alert (s : StreamControl) : Prop where
  announced : s.outbound ≠ [] → s.outboundReady = true ∨ s.parser = .setting
  last : s.inLock = true → s.outbound = []

theorem Alert.good (halert : s.Alert) : s.Announced := by
  intro hparser _ hqueued
  rcases halert.announced hqueued with hready | hsetting
  · exact hready
  · rw [hparser] at hsetting
    cases hsetting

theorem Alert.requestSkip {s' : StreamControl} {id : BlockId} (halert : s.Alert)
    (hstep : s.requestSkip env id = some s') : s'.Alert := by
  unfold StreamControl.requestSkip at hstep
  cases hat : s.parser with
  | setting => simp only [hat, reduceCtorEq] at hstep
  | returned =>
      simp only [hat] at hstep
      by_cases hskip : (!s.enabled || id.isEmpty) = true
      · rw [if_pos hskip, Option.some.injEq] at hstep
        exact hstep ▸ halert
      · rw [if_neg hskip] at hstep
        by_cases hlock : s.inLock = true
        · rw [if_pos hlock] at hstep
          cases hstep
        · rw [if_neg hlock] at hstep
          by_cases hknown : id ∈ s.asked
          · rw [if_pos hknown, Option.some.injEq] at hstep
            exact hstep ▸ halert
          · rw [if_neg hknown, Option.some.injEq] at hstep
            subst hstep
            exact ⟨fun _ => Or.inr rfl, fun h => absurd h hlock⟩

theorem Alert.pendingOutbound {s' : StreamControl} (halert : s.Alert)
    (hstep : s.pendingOutbound = some s') : s'.Alert := by
  unfold StreamControl.pendingOutbound at hstep
  cases hat : s.sender with
  | returned =>
      simp only [hat] at hstep
      by_cases hskip : (!s.enabled || s.outbound.isEmpty) = true
      · rw [if_pos hskip, Option.some.injEq] at hstep
        exact hstep ▸ halert
      · rw [if_neg hskip, Option.some.injEq] at hstep
        subst hstep
        exact ⟨fun h => absurd rfl h, fun _ => rfl⟩
  | draining out => simp only [hat, reduceCtorEq] at hstep
  | woken => simp only [hat, reduceCtorEq] at hstep
  | taking buffer => simp only [hat, reduceCtorEq] at hstep
  | missing => simp only [hat, reduceCtorEq] at hstep

theorem Alert.nextOutbound {s' : StreamControl} (halert : s.Alert)
    (hstep : s.nextOutbound = some s') : s'.Alert := by
  unfold StreamControl.nextOutbound at hstep
  cases hat : s.sender with
  | returned =>
      simp only [hat] at hstep
      by_cases hready : (s.enabled && s.outboundReady) = true
      · rw [if_pos hready, Option.some.injEq] at hstep
        subst hstep
        exact ⟨halert.announced, fun h => by cases h⟩
      · rw [if_neg hready, Option.some.injEq] at hstep
        exact hstep ▸ halert
  | draining out => simp only [hat, reduceCtorEq] at hstep
  | woken => simp only [hat, reduceCtorEq] at hstep
  | taking buffer => simp only [hat, reduceCtorEq] at hstep
  | missing => simp only [hat, reduceCtorEq] at hstep

-- Clearing the event with nothing queued, or with the event about to be set, is no loss.
theorem Alert.senderGoesOn {s' : StreamControl} (halert : s.Alert)
    (hmeets : s.Meets .senderGoesOn) (hstep : s.senderGoesOn = some s') : s'.Alert := by
  have hcleared : s.outbound = [] ∨ s.parser = .setting →
      ∀ handed, Alert { s with outboundReady := false, sender := .returned, handed := handed } := by
    intro hharmless handed
    refine ⟨fun hqueued => Or.inr ?_, fun h => by cases h⟩
    exact hharmless.resolve_left hqueued
  have hmeets := hmeets rfl
  unfold StreamControl.senderGoesOn at hstep
  unfold clearsOutside at hmeets
  cases hat : s.sender with
  | returned => simp only [hat, reduceCtorEq] at hstep
  | draining out =>
      simp only [hat, Option.some.injEq] at hstep hmeets
      subst hstep
      exact hcleared (hmeets trivial) _
  | woken =>
      simp only [hat] at hstep
      cases hqueue : s.outbound with
      | nil =>
          simp only [hqueue, Option.some.injEq] at hstep
          subst hstep
          exact ⟨fun h => absurd rfl h, fun h => by cases h⟩
      | cons buffer rest =>
          have hqueued := halert.announced (by rw [hqueue]; exact List.cons_ne_nil _ _)
          simp only [hqueue] at hstep
          by_cases hlast : rest.isEmpty = true
          · rw [if_pos hlast, Option.some.injEq] at hstep
            subst hstep
            exact ⟨fun _ => hqueued, fun _ => List.isEmpty_iff.mp hlast⟩
          · rw [if_neg hlast, Option.some.injEq] at hstep
            subst hstep
            exact ⟨fun _ => hqueued, fun h => by cases h⟩
  | taking buffer =>
      simp only [hat, Option.some.injEq] at hstep
      subst hstep
      exact hcleared (Or.inl (halert.last (by simp [inLock, hat]))) _
  | missing =>
      simp only [hat, Option.some.injEq] at hstep hmeets
      subst hstep
      exact hcleared (hmeets trivial) _

theorem Alert.step {s' : StreamControl} {t : Turn} (halert : s.Alert) (hmeets : s.Meets t)
    (hstep : step env s t = some s') : s'.Alert := by
  cases t with
  | requestSkip id => exact halert.requestSkip hstep
  | pendingOutbound => exact halert.pendingOutbound hstep
  | nextOutbound => exact halert.nextOutbound hstep
  | senderGoesOn => exact halert.senderGoesOn hmeets hstep
  | parserGoesOn =>
      have hstep : s.parserGoesOn = some s' := hstep
      unfold StreamControl.parserGoesOn at hstep
      cases hat : s.parser with
      | returned => simp only [hat, reduceCtorEq] at hstep
      | setting =>
          simp only [hat, Option.some.injEq] at hstep
          subst hstep
          exact ⟨fun _ => Or.inl rfl, halert.last⟩

-- Clearing it with a request queued and its event set leaves the request unannounced.
theorem not_announced {s' : StreamControl} {t : Turn} (hmeets : ¬ s.Meets t)
    (hstep : step env s t = some s') : ¬ s'.Announced := by
  unfold Meets at hmeets
  simp only [Classical.not_imp, not_or] at hmeets
  obtain ⟨rfl, hclears, hqueued, hsetting⟩ := hmeets
  have hparser : s.parser = .returned := by
    cases hat : s.parser with
    | returned => rfl
    | setting => exact absurd hat hsetting
  have hstep : s.senderGoesOn = some s' := hstep
  unfold StreamControl.senderGoesOn at hstep
  unfold clearsOutside at hclears
  intro hannounced
  cases hat : s.sender with
  | draining out =>
      simp only [hat, Option.some.injEq] at hstep
      subst hstep
      cases hannounced hparser rfl hqueued
  | missing =>
      simp only [hat, Option.some.injEq] at hstep
      subst hstep
      cases hannounced hparser rfl hqueued
  | returned => simp only [hat, Bool.false_eq_true] at hclears
  | woken => simp only [hat, Bool.false_eq_true] at hclears
  | taking buffer => simp only [hat, Bool.false_eq_true] at hclears

-- The sending thread has taken what was queued; a request comes in and sets the event, and
-- the sending thread clears it.
theorem pendingOutbound_clears_request :
    ∃ s, run (step .sample) { enabled := true }
        [.requestSkip [1], .parserGoesOn, .pendingOutbound, .requestSkip [2], .parserGoesOn,
          .senderGoesOn] = some s ∧ ¬ s.Announced := by
  refine ⟨_, rfl, ?_⟩
  intro hannounced
  cases hannounced rfl rfl (by simp)

-- Requests are handed out once and in order in every run; that outside all calls what is
-- queued is announced holds all along a run exactly where no clearing outside the lock has
-- met a queued request whose event was set.
theorem outbound_handed_announced (env : Enviroment) (enabled : Bool) (schedule : List Turn)
    (s : StreamControl) (hrun : run (step env) { enabled := enabled } schedule = some s) :
    (s.handed.Nodup ∧ s.handed <+: (requested schedule).eraseDups.map (skipBuffer env)) ∧
    ((∀ front, front <+: schedule → ∀ met,
        run (step env) { enabled := enabled } front = some met → met.Announced) ↔
      Along (step env) Meets { enabled := enabled } schedule) := by
  refine ⟨(ordered_run hrun).handed, ?_⟩
  have hstart : Alert { enabled := enabled } := ⟨fun h => absurd rfl h, fun h => by cases h⟩
  exact along_iff_good (fun _ halert => halert.good)
    (fun _ _ _ halert hmeets hstep => halert.step hmeets hstep)
    (fun _ _ _ _ hmeets hstep => not_announced hmeets hstep) schedule hstart hrun

-- A request that comes in while the sending thread waits.
theorem outbound_handed_announced_sample :
    let env : Enviroment := .sample
    let start : StreamControl := { enabled := true }
    let schedule : List Turn :=
      [.requestSkip [1], .parserGoesOn, .nextOutbound, .senderGoesOn, .senderGoesOn]
    let s : StreamControl :=
      { enabled := true, asked := [[1]], handed := [skipBuffer env [1]] }
    (s.handed.Nodup ∧ s.handed <+: (requested schedule).eraseDups.map (skipBuffer env)) ∧
    ((∀ front, front <+: schedule → ∀ met,
        run (step env) start front = some met → met.Announced) ↔
      Along (step env) Meets start schedule) := by
  intro env start schedule s
  exact outbound_handed_announced env true schedule s rfl

end StreamControl

end BeeRpc
