import BeeRpc.Skips
import BeeRpc.Turns

namespace BeeRpc

open Wire Effect Naming

-- What a result is apart from the path of a Dir, which is a temporary name.
def Result.unnamed : Result → Result
  | .value v => .value v
  | .dir d => .dir { d with dir := 0 }

-- What a stretch of a run comes to: what it yields and raises, and what the receiver then holds
-- and has asked for.
structure Course where
  results : Yielded Result
  known : Known

namespace Course

def pure (k : Known) : Course := ⟨.pure [], k⟩

def andThen (first : Course) (next : Known → Course) : Course :=
  match first.results.raised with
  | some _ => first
  | none => ⟨first.results.andThen (next first.known).results, (next first.known).known⟩

variable {first : Course} {next : Known → Course}

theorem andThen_of_raised {e : Err} (h : first.results.raised = some e) :
    first.andThen next = first := by
  rw [andThen, h]

theorem andThen_of_none (h : first.results.raised = none) : first.andThen next =
    ⟨⟨first.results.items ++ (next first.known).results.items,
      (next first.known).results.raised⟩, (next first.known).known⟩ := by
  obtain ⟨⟨items, raised⟩, known⟩ := first
  obtain rfl : raised = none := h
  rfl

end Course

-- The forest that was torn to these pieces.
def Forest.join : List Forest → Forest
  | [] => .nil
  | piece :: pieces => piece.append (join pieces)

namespace Receiver

variable (receiver : Receiver)

def courseDir (field : Field) (forest : Forest) (k : Known) : Course :=
  match absorbDir receiver.env receiver.control k forest with
  | .error failure => ⟨.raise failure.error, k⟩
  | .ok (k', stored) => ⟨.pure [.dir { dir := 0, stored, type := field }], k'⟩

def courseMemory (b : Buffer) (field : Field) (piece : Forest) (k : Known) : Course :=
  match piece.gather receiver.env k.registry >>= receiver.turn b field with
  | .error e => ⟨.raise e, k⟩
  | .ok result => ⟨.pure result.toList, k.drain receiver.control piece⟩

-- A message that begins with this buffer. The disk takes all of it, the memory a piece a turn,
-- and what it leaves goes on under the default index.
def course (b : Buffer) : List Forest → Known → Course
  | [], k => .pure k
  | piece :: pieces, k =>
      match receiver.allIndices.lookup (receiver.indexOf b) with
      | none => ⟨.raise (.headIndex (receiver.indexOf b)), k⟩
      | some field =>
          if receiver.mode (receiver.indexOf b) then
            (receiver.courseMemory b field piece k).andThen (course {} pieces)
          else receiver.courseDir field (Forest.join (piece :: pieces)) k

-- The loop over the requests takes this course up to `more`, or up to where it raises.
def Follows (w : World) (course : Course) (more : List Buffer) : Prop :=
  match course.results.raised with
  | none => ∃ results w', receiver.Reaches w results w' ∧
      results.map Result.unnamed = course.results.items ∧ w'.known = course.known ∧
        w'.requests = more ∧ w'.Sound receiver.env
  | some e => ∃ results w' b w'', receiver.Reaches w results w' ∧
      results.map Result.unnamed = course.results.items ∧ w'.Sound receiver.env ∧
        w'.requests.head? = some b ∧ receiver.receive b w' = .error e w''

end Receiver

-- A message that is to be read up to `more`, whichever way its pieces are read.
inductive Comes (env : Enviroment) (more : List Buffer) :
    Bool → List Buffer → List Forest → Prop where
  | last {headed : Bool} {requests : List Buffer} {piece : Forest} : requests ≠ [] →
      Stretches env headed requests piece more → Carries env headed requests piece more →
      Comes env more headed requests [piece]
  | piece {headed : Bool} {requests left : List Buffer} {piece : Forest} {pieces : List Forest} :
      requests ≠ [] → Stretches env headed requests piece left →
      Carries env headed requests (Forest.join (piece :: pieces)) more →
      Comes env more false left pieces → Comes env more headed requests (piece :: pieces)

namespace Comes

variable {env : Enviroment} {more : List Buffer} {headed : Bool} {requests : List Buffer}
  {piece : Forest} {pieces : List Forest}

theorem ne_nil (h : Comes env more headed requests pieces) : requests ≠ [] := by
  cases h with
  | last hne => exact hne
  | piece hne => exact hne

theorem carries (h : Comes env more headed requests pieces) :
    Carries env headed requests (Forest.join pieces) more := by
  cases h with
  | last _ _ hcarries =>
      rw [Forest.join, Forest.join, append_nil]
      exact hcarries
  | piece _ _ hcarries => exact hcarries

theorem stretches (h : Comes env more headed requests (piece :: pieces)) :
    ∃ left, Stretches env headed requests piece left ∧
      ((pieces = [] ∧ left = more) ∨ Comes env more false left pieces) := by
  cases h with
  | last _ hstretches => exact ⟨more, hstretches, Or.inl ⟨rfl, rfl⟩⟩
  | piece _ hstretches _ hrest => exact ⟨_, hstretches, Or.inr hrest⟩

theorem headless (h : Comes env more false requests pieces) :
    ∃ b, requests.head? = some b ∧ b.head = none := by
  obtain ⟨b, hb⟩ := Option.isSome_iff_exists.mp (show requests.head?.isSome = true by
    simpa using h.ne_nil)
  refine ⟨b, hb, ?_⟩
  cases h with
  | last _ hstretches => exact hstretches.headless hb
  | piece _ hstretches => exact hstretches.headless hb

theorem chunk (skip : Option Block) (content : Bytes)
    (h : Comes env more headed requests (piece :: pieces)) :
    Comes env more headed (chunkBuffer skip content :: requests)
      (.chunk skip content piece :: pieces) := by
  cases h with
  | last _ hstretches hcarries =>
      exact .last (List.cons_ne_nil _ _) (.chunk skip content hstretches)
        (.chunk skip content hcarries)
  | piece _ hstretches hcarries hrest =>
      exact .piece (List.cons_ne_nil _ _) (.chunk skip content hstretches)
        (.chunk skip content hcarries) hrest

theorem head (head : Head) (h : Comes env more false requests pieces) :
    Comes env more true ({ head := some head } :: requests) pieces := by
  cases h with
  | last _ hstretches hcarries =>
      exact .last (List.cons_ne_nil _ _) (.head head hstretches) (.head head hcarries)
  | piece _ hstretches hcarries hrest =>
      exact .piece (List.cons_ne_nil _ _) (.head head hstretches) (.head head hcarries) hrest

end Comes

section

variable {receiver : Receiver}

-- Where one stretch is behind the other.
theorem Receiver.Follows.trans {w : World} {first : Course} {next : Known → Course}
    {left more : List Buffer} (h : receiver.Follows w first left)
    (hnext : ∀ w', w'.Sound receiver.env → w'.requests = left →
      receiver.Follows w' (next w'.known) more) :
    receiver.Follows w (first.andThen next) more := by
  unfold Receiver.Follows at h ⊢
  cases hfirst : first.results.raised with
  | some e =>
      rw [hfirst] at h
      rw [Course.andThen_of_raised hfirst, hfirst]
      exact h
  | none =>
      rw [hfirst] at h
      obtain ⟨results, w₁, hreaches, hresults, hknown, hleft, hsound⟩ := h
      have hrest := hnext w₁ hsound hleft
      rw [hknown] at hrest
      rw [Course.andThen_of_none hfirst]
      unfold Receiver.Follows at hrest
      cases hraised : (next first.known).results.raised with
      | none =>
          rw [hraised] at hrest
          obtain ⟨results', w', hreaches', hresults', hends⟩ := hrest
          refine ⟨results ++ results', w', hreaches.trans hreaches', ?_, hends⟩
          rw [List.map_append, hresults, hresults']
      | some e =>
          rw [hraised] at hrest
          obtain ⟨results', w', b, w'', hreaches', hresults', hends⟩ := hrest
          refine ⟨results ++ results', w', b, w'', hreaches.trans hreaches', ?_, hends⟩
          rw [List.map_append, hresults, hresults']

-- One turn.
theorem Receiver.Follows.turn {w : World} {b : Buffer} (hb : w.requests.head? = some b)
    {more : List Buffer} {k : Known} {result : Option Result} {w' : World}
    (hreceive : receiver.receive b w = .ok result w') (hknown : w'.known = k)
    (hmore : w'.requests = more) (hsound : w'.Sound receiver.env) :
    receiver.Follows w ⟨.pure (result.map Result.unnamed).toList, k⟩ more := by
  refine ⟨_, w', .turn hb hreceive (.start w'), ?_, hknown, hmore, hsound⟩
  rw [List.append_nil]
  cases result <;> rfl

theorem Receiver.Follows.raised {w : World} (hw : w.Sound receiver.env) {b : Buffer}
    (hb : w.requests.head? = some b) {more : List Buffer} {k : Known} {e : Err} {w' : World}
    (hreceive : receiver.receive b w = .error e w') :
    receiver.Follows w ⟨.raise e, k⟩ more :=
  ⟨[], w, b, w', .start w, rfl, hw, hb, hreceive⟩

-- A run that has a course yields its results.
theorem Receiver.Follows.run {w : World} {course : Course} (hw : w.Sound receiver.env)
    (h : receiver.Follows w course []) :
    (receiver.run w).1.map Result.unnamed = course.results ∧
      (course.results.raised = none → (receiver.run w).2.requests = []) := by
  unfold Receiver.Follows at h
  obtain ⟨⟨items, raised⟩, known⟩ := course
  cases raised with
  | none =>
      obtain ⟨results, w', hreaches, hresults, -, hleft, -⟩ := h
      rw [hreaches.run hw, run_nil w' hleft]
      refine ⟨?_, fun _ => hleft⟩
      simp only [Yielded.andThen, Yielded.pure, Yielded.map, List.append_nil, hresults]
  | some e =>
      obtain ⟨results, w', b, w'', hreaches, hresults, hsound, hb, hreceive⟩ := h
      rw [hreaches.raises hw hsound hb hreceive]
      refine ⟨?_, fun h => by cases h⟩
      simp only [Yielded.map, hresults]

end

section

variable {sender : Sender}

end

end BeeRpc
