import BeeRpc.RoundTrip

namespace BeeRpc

open Wire Effect

-- The pieces that a stream is gathered in, one a turn: all up to a separator or to the end of a
-- block outside all others, until `more` is left.
inductive Torn (env : Enviroment) (more : List Buffer) : Bool → List Buffer → List Forest → Prop where
  | last {headed : Bool} {requests : List Buffer} {forest : Forest} :
      requests ≠ [] → Stretches env headed requests forest more → Torn env more headed requests [forest]
  | piece {headed : Bool} {requests left : List Buffer} {forest : Forest} {forests : List Forest} :
      requests ≠ [] → Stretches env headed requests forest left → Torn env more false left forests →
      Torn env more headed requests (forest :: forests)

-- The same of a forest: each piece but the last ends with a block.
def Forest.torn : Forest → List Forest
  | .nil => [.nil]
  | .chunk skip content rest =>
      match rest.torn with
      | [] => []
      | piece :: pieces => .chunk skip content piece :: pieces
  | .block id positions body rest => .block id positions body .nil :: rest.torn

section

variable {env : Enviroment}

theorem Stretches.length_le {headed : Bool} {requests left : List Buffer} {forest : Forest}
    (h : Stretches env headed requests forest left) : left.length ≤ requests.length := by
  induction h with
  | separator left => exact Nat.le_succ _
  | ended => exact Nat.le_refl _
  | single head content left => exact Nat.le_succ _
  | head head _ ih => exact Nat.le_succ_of_le ih
  | chunk skip content _ ih => exact Nat.le_succ_of_le ih
  | block positions left hid hbody =>
      simp only [List.cons_append, List.length_cons, List.length_append]
      omega
  | cut positions hid hcut => exact Nat.zero_le _

theorem Stretches.length_lt {headed : Bool} {requests left : List Buffer} {forest : Forest}
    (h : Stretches env headed requests forest left) (hne : requests ≠ []) :
    left.length < requests.length := by
  cases h with
  | separator => exact Nat.lt_succ_self _
  | ended => exact absurd rfl hne
  | single => exact Nat.lt_succ_self _
  | head head h => exact Nat.lt_succ_of_le h.length_le
  | chunk skip content h => exact Nat.lt_succ_of_le h.length_le
  | block positions left hid hbody =>
      simp only [List.cons_append, List.length_cons, List.length_append]
      omega
  | cut positions hid hcut => exact Nat.succ_pos _

theorem Torn.length_lt {more : List Buffer} {headed : Bool} {requests : List Buffer}
    {forests : List Forest} (h : Torn env more headed requests forests) :
    more.length < requests.length := by
  induction h with
  | last hne h => exact h.length_lt hne
  | piece hne h _ ih => exact ih.trans (h.length_lt hne)

theorem Stretches.headless {requests left : List Buffer} {forest : Forest}
    (h : Stretches env false requests forest left) {b : Buffer} (hb : requests.head? = some b) :
    b.head = none := by
  cases h with
  | separator => cases hb; rfl
  | ended => cases hb
  | chunk => cases hb; rfl
  | block => cases hb; rfl
  | cut => cases hb; rfl

theorem Torn.chunk {more : List Buffer} {headed : Bool} {requests : List Buffer}
    {forest : Forest} {forests : List Forest} (skip : Option Block) (content : Bytes)
    (h : Torn env more headed requests (forest :: forests)) :
    Torn env more headed (chunkBuffer skip content :: requests)
      (.chunk skip content forest :: forests) := by
  cases h with
  | last _ h => exact .last (List.cons_ne_nil _ _) (.chunk skip content h)
  | piece _ h hrest => exact .piece (List.cons_ne_nil _ _) (.chunk skip content h) hrest

theorem Torn.head {more : List Buffer} {requests : List Buffer} {forests : List Forest} (head : Head)
    (h : Torn env more false requests forests) :
    Torn env more true ({ head := some head } :: requests) forests := by
  cases h with
  | last _ h => exact .last (List.cons_ne_nil _ _) (.head head h)
  | piece _ h hrest => exact .piece (List.cons_ne_nil _ _) (.head head h) hrest

theorem torn_ne_nil (forest : Forest) : forest.torn ≠ [] := by
  induction forest with
  | nil => exact List.cons_ne_nil _ _
  | chunk skip content rest ih =>
      obtain ⟨piece, pieces, h⟩ := List.exists_cons_of_ne_nil ih
      simp only [Forest.torn, h]
      exact List.cons_ne_nil _ _
  | block id positions body rest ihBody ihRest => exact List.cons_ne_nil _ _

-- What is in front of a separator is torn behind every block outside all others.
theorem torn_separator (forest : Forest) (hnests : forest.Nests []) (more : List Buffer) :
    Torn env more false (forest.stream env ++ separatorBuffer :: more) forest.torn := by
  induction forest with
  | nil => exact .last (List.cons_ne_nil _ _) (.separator more)
  | chunk skip content rest ih =>
      have hrest := ih hnests
      obtain ⟨piece, pieces, h⟩ := List.exists_cons_of_ne_nil (torn_ne_nil rest)
      simp only [Forest.torn, h]
      rw [h] at hrest
      exact hrest.chunk skip content
  | block id positions body rest ihBody ihRest =>
      obtain ⟨hid, -, -, hbody, hrest⟩ := hnests
      simp only [Forest.stream, List.append_assoc, List.cons_append]
      exact .piece (List.cons_ne_nil _ _) (.block positions _ hid hbody) (ihRest hrest)

end

section

variable {receiver : Receiver}

theorem indexOf_headless {b : Buffer} (hb : b.head = none) :
    receiver.indexOf b = receiver.defaultIndex := by
  rw [Receiver.indexOf, hb]
  rfl

-- The turns of a message in memory depend on what its pieces are.
theorem turn_congr {b b' : Buffer} (h : b.head = b'.head) (field : Field) (content : Bytes) :
    receiver.turn b field content = receiver.turn b' field content := by
  simp only [Receiver.turn, Receiver.onEmpty, h]

theorem lookup_defaultIndex : ∃ field, receiver.allIndices.lookup receiver.defaultIndex = some field := by
  unfold Receiver.defaultIndex
  by_cases h : (receiver.allIndices.lookup 1).isSome = true
  · rw [if_pos h]
    exact Option.isSome_iff_exists.mp h
  · rw [if_neg h]
    refine ⟨.bytes, ?_⟩
    rw [Receiver.allIndices, Naming.Dict.lookup_set, if_pos rfl]

-- One turn: it raises, or takes its piece.
theorem receive_stretch (hd : receiver.env.Digests) {headed : Bool} {forest : Forest}
    {left : List Buffer} {b : Buffer} {field : Field} (w : World) (hw : w.Sound receiver.env)
    (h : Stretches receiver.env headed w.requests forest left)
    (hreads : ∀ id ∈ forest.names, w.registry.Reads receiver.env id)
    (hfield : receiver.allIndices.lookup (receiver.indexOf b) = some field)
    (hmode : receiver.mode (receiver.indexOf b) = true) :
    ∃ w₁ : World, w₁.requests = left ∧ w₁.registry = w.registry ∧ w₁.Sound receiver.env ∧
      receiver.receive b w = saveOf (receiver.turn b field (forest.bytes w.registry)) w₁ := by
  obtain ⟨items, hreceive, -, hleft⟩ := receive_memory hd b w h hreads hfield hmode
  exact ⟨w.afterAll receiver.control items, hleft, afterAll_registry receiver.control w items,
    hw.keeps (afterAll_keeps receiver.control items w hw), hreceive⟩

theorem turns_eq_pure_cons (first : Except Err (Option Result))
    (rest : List (Except Err (Option Result))) (results : List Result) :
    turns (first :: rest) = .pure results ↔
      ∃ result more, first = .ok result ∧ results = result.toList ++ more ∧
        turns rest = .pure more := by
  cases first with
  | error e => simp [turns, Yielded.raise, Yielded.pure]
  | ok result =>
      simp only [turns]
      cases hrest : turns rest with
      | mk items raised =>
          constructor
          · intro h
            simp only [Yielded.andThen, Yielded.pure, Yielded.mk.injEq] at h
            obtain ⟨hitems, rfl⟩ := h
            exact ⟨result, items, rfl, hitems.symm, rfl⟩
          · rintro ⟨result', more, hresult, rfl, h⟩
            obtain rfl := Except.ok.inj hresult
            rw [h]
            rfl

-- The turns up to `more`, or up to one that raises.
theorem torn_turns (hd : receiver.env.Digests) {headed : Bool} {more : List Buffer}
    {first : Forest} {forests : List Forest} {b : Buffer} {field default : Field} (w : World)
    (hw : w.Sound receiver.env) (hb : w.requests.head? = some b)
    (h : Torn receiver.env more headed w.requests (first :: forests))
    (hreads : ∀ forest ∈ first :: forests, ∀ id ∈ forest.names, w.registry.Reads receiver.env id)
    (hfield : receiver.allIndices.lookup (receiver.indexOf b) = some field)
    (hdefault : receiver.allIndices.lookup receiver.defaultIndex = some default)
    (hmode : receiver.mode (receiver.indexOf b) = true)
    (hmodes : forests ≠ [] → receiver.mode receiver.defaultIndex = true) :
    let all := receiver.turn b field (first.bytes w.registry) ::
      forests.map fun forest => receiver.turn {} default (forest.bytes w.registry)
    ∃ results w', receiver.Reaches w results w' ∧ w'.Sound receiver.env ∧
      w'.registry = w.registry ∧
      ((turns all = .pure results ∧ w'.requests = more) ∨
        ∃ b e w'', turns all = ⟨results, some e⟩ ∧ more.length < w'.requests.length ∧
          w'.requests.head? = some b ∧ receiver.receive b w' = .error e w'') := by
  induction forests generalizing headed first b field w with
  | nil =>
      cases h with
      | last hne h =>
          obtain ⟨w₁, hleft, hregistry, hsound, hreceive⟩ := receive_stretch hd w hw h
            (hreads first (List.mem_cons_self ..)) hfield hmode
          cases hturn : receiver.turn b field (first.bytes w.registry) with
          | error e =>
              rw [hturn] at hreceive
              exact ⟨[], w, .start w, hw, rfl,
                Or.inr ⟨b, e, w₁, rfl, h.length_lt hne, hb, hreceive⟩⟩
          | ok result =>
              rw [hturn] at hreceive
              refine ⟨_, w₁, .turn hb hreceive (.start w₁), hsound, hregistry, Or.inl ⟨?_, hleft⟩⟩
              rfl
      | piece hne h hrest => cases hrest
  | cons second forests ih =>
      cases h with
      | @piece _ _ left _ _ hne h hrest =>
          obtain ⟨w₁, hleft, hregistry, hsound, hreceive⟩ := receive_stretch hd w hw h
            (hreads first (List.mem_cons_self ..)) hfield hmode
          cases hturn : receiver.turn b field (first.bytes w.registry) with
          | error e =>
              rw [hturn] at hreceive
              exact ⟨[], w, .start w, hw, rfl,
                Or.inr ⟨b, e, w₁, rfl, hrest.length_lt.trans (h.length_lt hne), hb, hreceive⟩⟩
          | ok result =>
              rw [hturn] at hreceive
              obtain ⟨b', hb'⟩ : ∃ b', w₁.requests.head? = some b' := by
                rw [hleft]
                cases hrest with
                | last hne => exact Option.isSome_iff_exists.mp (by simpa using hne)
                | piece hne => exact Option.isSome_iff_exists.mp (by simpa using hne)
              have hheadless : b'.head = none := by
                rw [hleft] at hb'
                cases hrest with
                | last _ h => exact h.headless hb'
                | piece _ h _ => exact h.headless hb'
              have hindex := @indexOf_headless receiver b' hheadless
              have hlater := hmodes (List.cons_ne_nil _ _)
              obtain ⟨results, w', hreaches, hsound', hregistry', hends⟩ := ih w₁ hsound hb'
                (hleft ▸ hrest)
                (fun forest hforest id hid => hregistry ▸
                  hreads forest (List.mem_cons_of_mem _ hforest) id hid)
                (by rw [hindex, hdefault]) (by rw [hindex, hlater]) (fun _ => hlater)
              refine ⟨_, w', .turn hb hreceive hreaches, hsound', hregistry'.trans hregistry, ?_⟩
              simp only [hregistry, @turn_congr receiver b' {} hheadless] at hends
              rcases hends with ⟨hturns, hrequests⟩ | ⟨b'', e, w'', hturns, hends⟩
              · refine Or.inl ⟨?_, hrequests⟩
                rw [turns, List.map_cons, hturns]
                rfl
              · refine Or.inr ⟨b'', e, w'', ?_, hends⟩
                rw [turns, List.map_cons, hturns]
                rfl

-- What is reached is what they yield, if none of them raises.
theorem reaches_torn (hd : receiver.env.Digests) {headed : Bool} {more : List Buffer}
    {first : Forest} {forests : List Forest} {b : Buffer} {field default : Field} (w : World)
    (hw : w.Sound receiver.env) (hb : w.requests.head? = some b)
    (h : Torn receiver.env more headed w.requests (first :: forests))
    (hreads : ∀ forest ∈ first :: forests, ∀ id ∈ forest.names, w.registry.Reads receiver.env id)
    (hfield : receiver.allIndices.lookup (receiver.indexOf b) = some field)
    (hdefault : receiver.allIndices.lookup receiver.defaultIndex = some default)
    (hmode : ∀ index, receiver.mode index = true) (results : List Result) :
    (∃ w', receiver.Reaches w results w' ∧ w'.requests = more) ↔
      turns (receiver.turn b field (first.bytes w.registry) ::
        forests.map fun forest => receiver.turn {} default (forest.bytes w.registry)) =
          .pure results := by
  obtain ⟨found, w₁, hreaches, hsound, -, ⟨hturns, hleft⟩ | ⟨b', e, w₂, hturns, hmore, hb', hraises⟩⟩ :=
    torn_turns hd w hw hb h hreads hfield hdefault (hmode _) fun _ => hmode _
  · rw [hturns]
    constructor
    · rintro ⟨w', hreaches', hrequests⟩
      obtain ⟨rest, rfl, hrest⟩ := hreaches.linear hreaches' hw (by rw [hleft, hrequests])
      rcases hrest.length hsound with ⟨-, rfl⟩ | hless
      · rw [List.append_nil]
      · rw [hleft, hrequests] at hless
        exact absurd hless (Nat.lt_irrefl _)
    · intro h
      obtain rfl : found = results := congrArg Yielded.items h
      exact ⟨w₁, hreaches, hleft⟩
  · rw [hturns]
    refine iff_of_false ?_ (fun h => by cases h)
    rintro ⟨w', hreaches', hrequests⟩
    obtain ⟨rest, -, hrest⟩ := hreaches.linear hreaches' hw (by rw [hrequests]; omega)
    cases hrest with
    | start =>
        rw [hrequests] at hmore
        exact absurd hmore (Nat.lt_irrefl _)
    | turn hb'' hreceive _ =>
        obtain rfl := Option.some.inj (hb'.symm.trans hb'')
        rw [hraises] at hreceive
        cases hreceive

end

end BeeRpc
