import BeeRpc.Refusal
import BeeRpc.Turns

namespace BeeRpc

open Wire Effect Naming

-- The content of an object, cut behind every block.
def stretches (fill : BlockId → Bytes) (current : Bytes) : List (Bytes ⊕ BlockId) → List Bytes
  | [] => [current]
  | .inl content :: rest => stretches fill (current ++ content) rest
  | .inr id :: rest => (current ++ fill id) :: stretches fill [] rest

section Stretches

variable (fill : BlockId → Bytes)

theorem stretches_flatten (current : Bytes) (layout : List (Bytes ⊕ BlockId)) :
    (stretches fill current layout).flatten = current ++ layout.flatMap (Sum.elim id fill) := by
  induction layout generalizing current with
  | nil => simp [stretches]
  | cons piece rest ih =>
      cases piece with
      | inl content => simp [stretches, ih]
      | inr id => simp [stretches, ih]

theorem torn_layout (forest : Forest) (current : Bytes) :
    ∃ first rest, forest.torn = first :: rest ∧ stretches fill [] (forest.layout current) =
      (current ++ first.expand fill) :: rest.map (Forest.expand fill) := by
  induction forest generalizing current with
  | nil => exact ⟨.nil, [], rfl, by simp [Forest.layout, stretches, Forest.expand]⟩
  | chunk skip content rest ih =>
      obtain ⟨first, more, htorn, hlayout⟩ := ih (current ++ content)
      refine ⟨.chunk skip content first, more, by simp only [Forest.torn, htorn], ?_⟩
      rw [Forest.layout, hlayout, Forest.expand, List.append_assoc]
  | block id positions body rest ihBody ihRest =>
      obtain ⟨first, more, htorn, hlayout⟩ := ihRest []
      refine ⟨.block id positions body .nil, rest.torn, rfl, ?_⟩
      rw [htorn, Forest.layout]
      simp only [stretches, List.nil_append] at hlayout ⊢
      rw [hlayout]
      simp [Forest.expand]

theorem torn_length (forest : Forest) : forest.torn.length = forest.blocks.length + 1 := by
  induction forest with
  | nil => rfl
  | chunk skip content rest ih =>
      obtain ⟨piece, pieces, h⟩ := List.exists_cons_of_ne_nil (torn_ne_nil rest)
      rw [h] at ih
      simp only [Forest.torn, h]
      exact ih
  | block id positions body rest ihBody ihRest =>
      rw [Forest.torn, List.length_cons, ihRest, Forest.blocks, List.length_cons]

end Stretches

section Memory

variable {env : Enviroment} {sender : Registry}

theorem Forest.Faithful.names {forest : Forest} (h : forest.Faithful sender) :
    ∀ id ∈ forest.names, ∃ content, sender.expansion id = some content := by
  induction forest with
  | nil => simp [Forest.names]
  | chunk skip content rest ih => exact ih h
  | block other positions body rest ihBody ihRest =>
      obtain ⟨hexpansion, -, hbody, hrest⟩ := h
      intro id hid
      simp only [Forest.names, List.mem_cons, List.mem_append, List.cons_append] at hid
      rcases hid with rfl | hid | hid
      · exact ⟨_, hexpansion⟩
      · exact ihBody hbody id hid
      · exact ihRest hrest id hid

-- A block that is held can be read from the registry, whose content is the sender's.
theorem Known.Good.reads {k : Known} (hgood : k.Good env sender) {forest : Forest}
    (h : forest.Faithful sender) : ∀ id ∈ forest.names, k.registry.Reads env id := by
  intro id hid hexists
  obtain ⟨content, hcontent⟩ := h.names id hid
  have hheld := hgood.expansion hcontent hexists
  obtain ⟨chunks, hread, hflatten⟩ := readBlock_flat hgood.addressed.filesNamed 1 hheld
  refine ⟨chunks, hread, ?_⟩
  rw [hflatten, Registry.content, hheld, Option.getD_some]

theorem Known.Good.bytes {k : Known} (hgood : k.Good env sender) {forest : Forest}
    (h : forest.Faithful sender) : forest.bytes k.registry = forest.expand sender.content := by
  induction forest with
  | nil => rfl
  | chunk skip content rest ih => rw [Forest.bytes, Forest.expand, ih h]
  | block id positions body rest ihBody ihRest =>
      obtain ⟨hexpansion, -, hbody, hrest⟩ := h
      have hfill : sender.content id = body.expand sender.content := by
        rw [Registry.content, hexpansion, Option.getD_some]
      rw [Forest.bytes, Forest.expand, ihRest hrest]
      by_cases hexists : k.registry.blockExists id = true
      · rw [if_pos hexists, Registry.content, hgood.expansion hexpansion hexists, hfill,
          Option.getD_some]
      · rw [if_neg hexists, ihBody hbody, hfill]

theorem Forest.Faithful.torn {forest : Forest} (h : forest.Faithful sender) :
    ∀ piece ∈ forest.torn, piece.Faithful sender := by
  induction forest with
  | nil =>
      intro piece hpiece
      rw [List.mem_singleton.mp hpiece]
      trivial
  | chunk skip content rest ih =>
      intro piece hpiece
      have hrest := ih h
      simp only [Forest.torn] at hpiece
      split at hpiece
      · cases hpiece
      · rename_i first pieces htorn
        rw [htorn] at hrest
        rcases List.mem_cons.mp hpiece with rfl | hpiece
        · exact hrest first (List.mem_cons_self ..)
        · exact hrest piece (List.mem_cons_of_mem _ hpiece)
  | block id positions body rest ihBody ihRest =>
      obtain ⟨hexpansion, hlaid, hbody, hrest⟩ := h
      intro piece hpiece
      rcases List.mem_cons.mp hpiece with rfl | hpiece
      · exact ⟨hexpansion, hlaid, hbody, trivial⟩
      · exact ihRest hrest piece hpiece

end Memory

section Counting

variable {receiver : Receiver}

theorem turn_content (b : Buffer) (field : Field) {content : Bytes} (h : content ≠ []) :
    receiver.turn b field content =
      (receiver.convert field content).map fun value => some (.value value) := by
  rw [Receiver.turn, if_neg h]

-- A value says what it was made as.
def Value.type : Value → Field
  | bytes _ => .bytes
  | str _ => .str
  | message cls _ => .message cls

theorem convert_type {field : Field} {content : Bytes} {value : Value}
    (h : receiver.convert field content = .ok value) : value.type = field := by
  cases field with
  | bytes => rw [← Except.ok.inj h]; rfl
  | str =>
      simp only [Receiver.convert] at h
      split at h
      · rw [← Except.ok.inj h]; rfl
      · cases h
  | message cls =>
      simp only [Receiver.convert] at h
      split at h
      · rw [← Except.ok.inj h]; rfl
      · cases h

theorem turns_singleton (b : Buffer) (field : Field) {content : Bytes} (h : content ≠ [])
    (value : Value) : turns [receiver.turn b field content] = .pure [.value value] ↔
      receiver.convert field content = .ok value := by
  rw [turn_content b field h]
  cases receiver.convert field content with
  | error e => simp [Except.map, turns, Yielded.raise, Yielded.pure]
  | ok found => simp [Except.map, turns, Yielded.pure]

theorem turns_filter (turn : Bytes → Except Err (Option Result)) (hturn : turn [] = .ok none)
    (contents : List Bytes) :
    turns (contents.map turn) = turns ((contents.filter (· ≠ [])).map turn) := by
  induction contents with
  | nil => rfl
  | cons content contents ih =>
      by_cases h : content = []
      · subst h
        rw [List.filter_cons_of_neg (by simp), List.map_cons, hturn, turns, ih]
        rfl
      · rw [List.filter_cons_of_pos (by simpa using h), List.map_cons, List.map_cons]
        cases turn content with
        | error e => rfl
        | ok result => rw [turns, turns, ih]

theorem flatten_filter (contents : List Bytes) :
    (contents.filter (· ≠ [])).flatten = contents.flatten := by
  induction contents with
  | nil => rfl
  | cons content contents ih =>
      by_cases h : content = []
      · rw [List.filter_cons_of_neg (by simp [h]), ih, h]
        rfl
      · rw [List.filter_cons_of_pos (by simpa using h), List.flatten_cons, ih, List.flatten_cons]

-- Turns that all yield something yield as much as there are.
theorem turns_count {results : List Result} (all : List (Except Err (Option Result)))
    (hall : ∀ turn ∈ all, turn ≠ .ok none) (h : turns all = .pure results) :
    results.length = all.length := by
  induction all generalizing results with
  | nil =>
      obtain rfl : results = [] := by simpa [turns, Yielded.pure] using h.symm
      rfl
  | cons first rest ih =>
      obtain ⟨result, more, rfl, rfl, hrest⟩ := (turns_eq_pure_cons ..).mp h
      have hmore := ih (fun turn hturn => hall turn (List.mem_cons_of_mem _ hturn)) hrest
      cases result with
      | none => exact absurd rfl (hall _ (List.mem_cons_self ..))
      | some result =>
          rw [List.length_append, hmore, List.length_cons, Nat.add_comm]
          rfl

theorem turn_ne_none (b : Buffer) (field : Field) {content : Bytes} (h : content ≠ []) :
    receiver.turn b field content ≠ .ok none := by
  rw [turn_content b field h]
  cases receiver.convert field content with
  | error e => exact fun h => by cases h
  | ok value => exact fun h => by cases h

-- Where index 1 stands for an Empty, an empty piece yields one.
theorem turn_empty (h : receiver.allIndices.lookup 1 = some .empty) (b : Buffer) (field : Field)
    (content : Bytes) : receiver.turn b field content ≠ .ok none := by
  by_cases hcontent : content = []
  · rw [Receiver.turn, if_pos hcontent]
    have hdefault : receiver.defaultIndex = 1 := by
      rw [Receiver.defaultIndex, h]
      rfl
    simp only [Receiver.onEmpty, h, hdefault]
    cases b.head with
    | none => exact fun h => by cases h
    | some head => exact fun h => by cases h
  · exact turn_ne_none b field hcontent

theorem turn_default (h : receiver.allIndices.lookup 1 ≠ some .empty) {default : Field}
    (hdefault : receiver.allIndices.lookup receiver.defaultIndex = some default) :
    receiver.turn {} default [] = .ok none := by
  have hne : default ≠ .empty := by
    rintro rfl
    unfold Receiver.defaultIndex at hdefault
    by_cases hone : (receiver.allIndices.lookup 1).isSome = true
    · rw [if_pos hone] at hdefault
      exact h hdefault
    · rw [if_neg hone, Receiver.allIndices, Dict.lookup_set, if_pos rfl] at hdefault
      cases hdefault
  rw [Receiver.turn, if_pos rfl]
  simp only [Receiver.onEmpty, hdefault, Option.getD_some, Receiver.emptyResult, if_neg hne]

theorem eq_flatten_of_length {contents : List Bytes}
    (h : (contents.filter (· ≠ [])).length = 1) :
    contents.filter (· ≠ []) = [contents.flatten] := by
  obtain ⟨content, hcontent⟩ := List.length_eq_one_iff.mp h
  rw [hcontent, ← flatten_filter, hcontent]
  simp

-- The pieces of a message yield it alone if one of them is all of it, and index 1 does not make
-- an Empty of the others.
theorem turns_one_iff {first : Bytes} {rest : List Bytes} (hrest : rest ≠ []) {b : Buffer}
    {head : Head} (hb : b.head = some head) {field default : Field}
    (hdefault : receiver.allIndices.lookup receiver.defaultIndex = some default) {value : Value}
    (hvalue : receiver.convert field (first ++ rest.flatten) = .ok value) :
    turns (receiver.turn b field first :: rest.map (receiver.turn {} default)) =
        .pure [.value value] ↔
      receiver.allIndices.lookup 1 ≠ some .empty ∧
        ((first :: rest).filter (· ≠ [])).length = 1 ∧
          (first ≠ [] ∨ receiver.allIndices.lookup 1 = some field) := by
  by_cases hempty : receiver.allIndices.lookup 1 = some .empty
  · refine iff_of_false (fun h => ?_) (fun h => h.1 hempty)
    have hcount := turns_count _ (fun turn hturn => ?_) h
    · have hpos := List.length_pos_iff.mpr hrest
      simp only [List.length_cons, List.length_map, List.length_nil] at hcount
      omega
    · rcases List.mem_cons.mp hturn with rfl | hturn
      · exact turn_empty hempty b field first
      · obtain ⟨content, -, rfl⟩ := List.mem_map.mp hturn
        exact turn_empty hempty {} default content
  have hskip := turn_default hempty hdefault
  have hcount : ∀ results, turns (rest.map (receiver.turn {} default)) = .pure results →
      results.length = (rest.filter (· ≠ [])).length := by
    intro results h
    rw [turns_filter _ hskip] at h
    rw [turns_count _ (fun turn hturn => ?_) h, List.length_map]
    obtain ⟨content, hcontent, rfl⟩ := List.mem_map.mp hturn
    exact turn_ne_none {} default (by simpa using (List.mem_filter.mp hcontent).2)
  rw [turns_eq_pure_cons]
  by_cases hfirst : first = []
  · subst hfirst
    rw [List.filter_cons_of_neg (by simp)]
    simp only [List.nil_append] at hvalue
    have hnone : receiver.turn b field [] = receiver.onEmpty b := by rw [Receiver.turn, if_pos rfl]
    cases hone : receiver.allIndices.lookup 1 with
    | none =>
        simp only [Receiver.onEmpty, hb, hone] at hnone
        simp [hnone]
    | some other =>
        rw [hone] at hempty
        have hother : other ≠ .empty := fun h => hempty (congrArg some h)
        obtain rfl : other = default := by
          rw [Receiver.defaultIndex, hone] at hdefault
          exact Option.some.inj (hone.symm.trans hdefault)
        simp only [Receiver.onEmpty, hb, hone, Receiver.emptyResult, if_neg hother] at hnone
        rw [hnone]
        have hflat : (rest.filter (· ≠ [])).length = 1 → rest.flatten ≠ [] := by
          intro hlength
          have hmem : rest.flatten ∈ rest.filter (· ≠ []) := by
            rw [eq_flatten_of_length hlength]
            exact List.mem_singleton.mpr rfl
          simpa using (List.mem_filter.mp hmem).2
        have hall : (rest.filter (· ≠ [])).length = 1 →
            turns (rest.map (receiver.turn {} other)) = turns [receiver.turn {} other rest.flatten] := by
          intro hlength
          rw [turns_filter _ hskip, eq_flatten_of_length hlength]
          rfl
        constructor
        · rintro ⟨result, more, hresult, hmore, hturns⟩
          obtain rfl := Except.ok.inj hresult
          obtain rfl : [.value value] = more := hmore
          have hlength := (hcount _ hturns).symm
          rw [hall hlength, turns_singleton _ _ (hflat hlength)] at hturns
          have hsame := (convert_type hturns).symm.trans (convert_type hvalue)
          exact ⟨hempty, hlength, Or.inr (congrArg some hsame)⟩
        · rintro ⟨-, hlength, hfield⟩
          obtain rfl := Option.some.inj (hfield.resolve_left (fun h => h rfl))
          refine ⟨none, [.value value], rfl, rfl, ?_⟩
          rw [hall hlength, turns_singleton _ _ (hflat hlength)]
          exact hvalue
  · rw [List.filter_cons_of_pos (by simpa using hfirst), List.length_cons,
      turn_content b field hfirst]
    constructor
    · rintro ⟨result, more, hresult, hmore, hturns⟩
      cases hfound : receiver.convert field first with
      | error e =>
          rw [hfound] at hresult
          cases hresult
      | ok found =>
          rw [hfound] at hresult
          obtain rfl := Except.ok.inj hresult
          obtain rfl : more = [] := (List.cons.inj hmore).2.symm
          have hnone := hcount [] hturns
          exact ⟨hempty, by rw [← hnone]; rfl, Or.inl hfirst⟩
    · rintro ⟨-, hlength, -⟩
      have hnil : rest.filter (· ≠ []) = [] := by
        apply List.length_eq_zero_iff.mp
        omega
      have hflat : rest.flatten = [] := by
        rw [← flatten_filter, hnil]
        rfl
      rw [hflat, List.append_nil] at hvalue
      refine ⟨some (.value value), [], by rw [hvalue]; rfl, rfl, ?_⟩
      rw [turns_filter _ hskip, hnil]
      rfl

end Counting

-- The content of a stored object, cut behind every block.
def Directory.stretches (directory : Directory) (registry : Registry) : List Bytes :=
  ((directory.runs directory.json).map (BeeRpc.stretches registry.content [])).getD []

-- One result is yielded, and the requests are then left as they are behind the object.
def Receiver.TakesOne (receiver : Receiver) (w : World) (more : List Buffer)
    (good : Result → World → Prop) : Prop :=
  ∃ result w', receiver.Reaches w [result] w' ∧ w'.requests = more ∧ good result w' ∧
    parseFromBuffer receiver w =
      ((Yielded.pure [result]).andThen (receiver.run w').1, (receiver.run w').2)

section Modes

variable {receiver : Receiver}

theorem stream_separates (env : Enviroment) (forest : Forest) :
    ∀ b ∈ forest.stream env, b.isSeparator = false :=
  forall_mem_stream (fun _ _ => rfl) (fun _ _ => rfl) forest

theorem takesOne_iff {w : World} (hw : w.Sound receiver.env) (more : List Buffer)
    (good : Result → World → Prop) (hrun : parseFromBuffer receiver w = receiver.run w) :
    receiver.TakesOne w more good ↔
      ∃ result w', receiver.Reaches w [result] w' ∧ w'.requests = more ∧ good result w' := by
  constructor
  · rintro ⟨result, w', hreaches, hmore, hgood, -⟩
    exact ⟨result, w', hreaches, hmore, hgood⟩
  · rintro ⟨result, w', hreaches, hmore, hgood⟩
    exact ⟨result, w', hreaches, hmore, hgood, hrun.trans (hreaches.run hw)⟩

-- A Dir is made of the whole object.
theorem reaches_dir (hd : receiver.env.Digests) {sender : Registry}
    (hsender : sender.ContentAddressed receiver.env) {stored : Stored} {head : Head}
    {forest : Forest} (hframed : stored.FramedBy sender forest) {type : Field}
    (hfield : receiver.allIndices.lookup head.index = some type)
    (hmode : receiver.mode head.index = false) (w : World) (hw : w.Sound receiver.env)
    (hgood : w.known.Good receiver.env sender) (more : List Buffer)
    (hrequests : w.requests = (Sent.framed head forest).stream receiver.env ++ more) :
    ∃ dir w', receiver.Reaches w [.dir dir] w' ∧ w'.requests = more ∧
      dir.stored.expandWith w'.registry.expansion = some (forest.expand sender.content) := by
  have hcarries : Carries receiver.env true _ forest more :=
    @Sent.carries receiver.env (.framed head forest) hframed.nests more
  obtain ⟨k, received, habsorb, -, -, -, hmirrors⟩ := absorbDir_faithful receiver.control hsender
    hframed w.known hgood (w.registry.map Prod.fst) fun id => Registry.blockExists_iff_mem
  have hreceive := receive_dir hd { head := some head } w hw (hrequests ▸ hcarries) hfield hmode
  rw [habsorb] at hreceive
  obtain ⟨path, w', hw', hknown, hmore, -⟩ := hreceive
  have hfirst : w.requests.head? = some { head := some head } := by rw [hrequests]; rfl
  refine ⟨_, w', .turn hfirst hw' (.start w'), hmore, ?_⟩
  rw [show w'.registry = k.registry from congrArg Known.registry hknown]
  exact hmirrors.expands

-- In memory it is made of the whole object only under the condition.
theorem reaches_memory_iff (hd : receiver.env.Digests) {sender : Registry} {stored : Stored}
    {head : Head} {forest : Forest} (hframed : stored.FramedBy sender forest)
    (hblocks : forest.blocks ≠ []) {type : Field}
    (hfield : receiver.allIndices.lookup head.index = some type)
    (hmode : ∀ index, receiver.mode index = true) (w : World) (hw : w.Sound receiver.env)
    (hgood : w.known.Good receiver.env sender) (more : List Buffer)
    (hrequests : w.requests = (Sent.framed head forest).stream receiver.env ++ more)
    {value : Value} (hvalue : receiver.convert type (forest.expand sender.content) = .ok value)
    {contents : List Bytes}
    (hcontents : stretches sender.content [] (forest.layout []) = contents) :
    (∃ w', receiver.Reaches w [.value value] w' ∧ w'.requests = more) ↔
      receiver.allIndices.lookup 1 ≠ some .empty ∧ (contents.filter (· ≠ [])).length = 1 ∧
        (contents.head? ≠ some [] ∨ receiver.allIndices.lookup 1 = some type) := by
  obtain ⟨default, hdefault⟩ := @lookup_defaultIndex receiver
  obtain ⟨first, rest, htorn, hlayout⟩ := torn_layout sender.content forest []
  rw [hcontents, List.nil_append] at hlayout
  have hstream : (Sent.framed head forest).stream receiver.env ++ more =
      { head := some head } :: (forest.stream receiver.env ++ separatorBuffer :: more) := by
    simp [Sent.stream]
  have hpieces : Torn receiver.env more true w.requests (first :: rest) := by
    rw [hrequests, hstream, ← htorn]
    exact (torn_separator forest hframed.nests more).head head
  have hfaithful : ∀ piece ∈ first :: rest, piece.Faithful sender := by
    rw [← htorn]
    exact hframed.faithful.torn
  have hreads : ∀ piece ∈ first :: rest, ∀ id ∈ piece.names, w.registry.Reads receiver.env id :=
    fun piece hpiece => hgood.reads (hfaithful piece hpiece)
  have hbytes : ∀ piece ∈ first :: rest, piece.bytes w.registry = piece.expand sender.content :=
    fun piece hpiece => hgood.bytes (hfaithful piece hpiece)
  have hb : w.requests.head? = some { head := some head } := by rw [hrequests]; rfl
  rw [reaches_torn hd w hw hb hpieces hreads hfield hdefault hmode,
    hbytes first (List.mem_cons_self ..)]
  have hlater : (rest.map fun piece => receiver.turn {} default (piece.bytes w.registry)) =
      (rest.map (Forest.expand sender.content)).map (receiver.turn {} default) := by
    rw [List.map_map]
    apply List.map_congr_left
    intro piece hpiece
    rw [hbytes piece (List.mem_cons_of_mem _ hpiece)]
    rfl
  have hrest : rest.map (Forest.expand sender.content) ≠ [] := by
    intro hnil
    have hlength := torn_length forest
    rw [htorn, List.map_eq_nil_iff.mp hnil] at hlength
    apply hblocks
    apply List.length_eq_zero_iff.mp
    simp only [List.length_cons, List.length_nil] at hlength
    omega
  have hwhole : first.expand sender.content ++ (rest.map (Forest.expand sender.content)).flatten =
      forest.expand sender.content := by
    have hflat := stretches_flatten sender.content [] (forest.layout [])
    rw [hcontents, hlayout, List.flatten_cons] at hflat
    exact hflat.trans (Forest.expand_layout sender.content forest [])
  rw [← hwhole] at hvalue
  rw [hlater, turns_one_iff hrest rfl hdefault hvalue, hlayout]
  simp

end Modes

-- The two modes agree on a stored object with blocks in it exactly where one of the pieces that
-- the blocks' ends cut it into is all of it.
theorem parseFromBuffer_agrees_iff (sender : Sender) (receiver : Receiver) (object : Directory)
    (type : Field) (others : List (Stored × Field)) (w : World)
    (hd : sender.env.Digests) (hsame : sender.env.hashFactory = receiver.env.hashFactory)
    (hdepth : 1 ≤ sender.env.blockDepth ∧ sender.env.blockDepth ≤ MAX_BLOCK_NESTING)
    (hskips : sender.skips = none) (hsender : sender.registry.Correct sender.env)
    (hobjects : ∀ stored ∈ (.dir object) :: others.map Prod.fst, stored.Complete sender.registry)
    (hblocks : object.blocks ≠ [])
    (hindices : ∀ sent ∈ (.dir object, type) :: others, ∃ index,
      sender.indexOf (((.dir object, type) :: others).map fun sent => .dir sent.1 sent.2) sent.2 =
        some index ∧ receiver.allIndices.lookup index = some sent.2)
    (hmode : receiver.indices ≠ [] ∧ receiver.partitionsMessageMode = .inl true)
    (hreceiver : w.registry.ContentAddressed receiver.env)
    (hagrees : sender.registry.Agrees w.registry) (hscratch : w.scratch = [])
    {content : Bytes} (hcontent : object.expandWith sender.registry.expansion = some content)
    {value : Value} (hvalue : receiver.convert type content = .ok value) :
    let messages := ((.dir object, type) :: others).map fun sent => Outgoing.dir sent.1 sent.2
    let stream := serializeToBuffer sender messages
    let start : World := { w with requests := stream.items }
    let onDisk : Receiver := { receiver with partitionsMessageMode := .inl false }
    let pieces := object.stretches sender.registry
    stream.raised = none ∧ ∃ before more, stream.items = before ++ separatorBuffer :: more ∧
      (∀ b ∈ before, b.isSeparator = false) ∧
      ((receiver.TakesOne start more fun result _ => result = .value value) ∧
          (onDisk.TakesOne start more fun result w' => ∃ dir, result = .dir dir ∧
            dir.stored.expandWith w'.registry.expansion = some content) ↔
        receiver.allIndices.lookup 1 ≠ some .empty ∧ (pieces.filter (· ≠ [])).length = 1 ∧
          (pieces.head? ≠ some [] ∨ receiver.allIndices.lookup 1 = some type)) := by
  intro messages stream start onDisk pieces
  have hcomplete : ∀ message ∈ messages, message.stored.Complete sender.registry := by
    intro message hmessage
    obtain ⟨sent, hsent, rfl⟩ := List.mem_map.mp hmessage
    rcases List.mem_cons.mp hsent with rfl | hsent
    · exact hobjects _ (List.mem_cons_self ..)
    · exact hobjects _ (List.mem_cons_of_mem _ (List.mem_map_of_mem hsent))
  have hindexOf : ∀ message ∈ messages, ∃ index,
      sender.indexOf messages message.type = some index ∧
        receiver.allIndices.lookup index = some message.type := by
    intro message hmessage
    obtain ⟨sent, hsent, rfl⟩ := List.mem_map.mp hmessage
    exact hindices sent hsent
  obtain ⟨sents, hsents, hall⟩ := serializeToBuffer_sent hd hsender hdepth.2 hskips messages
    (Or.inl (List.cons_ne_nil _ _)) hcomplete
    fun message hmessage => (hindexOf message hmessage).imp fun _ h => h.1
  have hitems : stream.items = sents.flatMap (Sent.stream receiver.env) := by
    rw [show stream = _ from hsents]
    exact List.flatMap_congr fun sent _ => sent_stream_congr hsame sent
  have hread : controlReader receiver.env stream.items = stream.items :=
    controlReader_skip _ _ (serializeToBuffer_skip messages)
  have hdr : receiver.env.Digests := fun content => hsame ▸ hd content
  have hcontents : sender.registry.ContentAddressed receiver.env := by
    intro id stored hl
    rw [← hsame]
    exact hsender.addressed id stored hl
  obtain ⟨hne, hinl⟩ := hmode
  have hstart : start.Sound receiver.env :=
    ⟨hreceiver, fun path hpath => by simp [start, hscratch] at hpath⟩
  have hgood : start.known.Good receiver.env sender.registry := ⟨hreceiver, hagrees⟩
  have hcorrect : receiver.isCorrect = true := by simp [Receiver.isCorrect, hinl, hne]
  have hcorrect' : onDisk.isCorrect = true := by simp [Receiver.isCorrect, onDisk, hne]
  have hmemory : parseFromBuffer receiver start = receiver.run start := by
    simp only [parseFromBuffer, hcorrect, if_true, start, hread, ite_self]
    rfl
  have hdisk : parseFromBuffer onDisk start = onDisk.run start := by
    have hread' : controlReader onDisk.env start.requests = start.requests := hread
    simp only [parseFromBuffer, hcorrect', if_true, hread', ite_self]
    rfl
  refine ⟨by rw [show stream = _ from hsents]; rfl, ?_⟩
  obtain ⟨sent, sents, hone, -, rfl⟩ := List.forall₂_cons_left_iff.mp hall
  obtain ⟨hhead, hframed⟩ := hone
  have hdir : object.FramedBy sender.registry sent.forest := hframed.dir object rfl
  obtain ⟨head, forest, rfl⟩ : ∃ head forest, sent = .framed head forest := by
    cases sent with
    | framed head forest => exact ⟨head, forest, rfl⟩
    | single head content => exact absurd hdir.blocks.symm hblocks
  have hforest : forest.blocks ≠ [] := hdir.blocks ▸ hblocks
  have hwhole : forest.expand sender.registry.content = content :=
    Option.some.inj (hframed.expands.symm.trans hcontent)
  have hpieces : stretches sender.registry.content [] (forest.layout []) = pieces := by
    simp only [pieces, Directory.stretches, hdir.runs]
    rfl
  obtain ⟨index, hindex, hlookup⟩ := hindexOf _ (List.mem_cons_self ..)
  obtain rfl : head.index = index := Option.some.inj (hhead.symm.trans hindex)
  have hfield : receiver.allIndices.lookup head.index = some type := hlookup
  rw [List.flatMap_cons] at hitems
  refine ⟨{ head := some head } :: forest.stream receiver.env,
    sents.flatMap (Sent.stream receiver.env), ?_, ?_, ?_⟩
  · rw [hitems]
    simp [Sent.stream]
  · intro b hb
    rcases List.mem_cons.mp hb with rfl | hb
    · rfl
    · exact stream_separates receiver.env forest b hb
  · rw [takesOne_iff hstart _ _ hmemory, @takesOne_iff onDisk _ hstart _ _ hdisk]
    have hiff := reaches_memory_iff hdr hframed hforest hfield
      (fun index => by simp only [Receiver.mode, hinl]) start hstart hgood _ hitems
      (hwhole ▸ hvalue) hpieces
    rw [← hiff]
    constructor
    · rintro ⟨⟨result, w', hreaches, hmore, rfl⟩, -⟩
      exact ⟨w', hreaches, hmore⟩
    · rintro ⟨w', hreaches, hmore⟩
      refine ⟨⟨_, w', hreaches, hmore, rfl⟩, ?_⟩
      obtain ⟨dir, w'', hreaches, hmore, hexpands⟩ := @reaches_dir onDisk hdr _ hcontents _
        head _ hframed _ hfield rfl start hstart hgood _ hitems
      exact ⟨_, w'', hreaches, hmore, dir, rfl, hexpands.trans (congrArg some hwhole)⟩

def Receiver.gathering : Receiver where
  env := .sample
  parse := fun _ _ => some (.unknown [])
  indices := [(1, .message 7)]
  partitionsMessageMode := .inl true

theorem parseFromBuffer_agrees_iff_sample :
    let object : Directory := .around
    let stream := serializeToBuffer .sample [.dir (.dir object) (.message 7)]
    let start : World := { requests := stream.items, registry := [] }
    let onDisk : Receiver := { Receiver.gathering with partitionsMessageMode := .inl false }
    let pieces := object.stretches Registry.sample
    stream.raised = none ∧ ∃ before more, stream.items = before ++ separatorBuffer :: more ∧
      (∀ b ∈ before, b.isSeparator = false) ∧
      ((Receiver.gathering.TakesOne start more fun result _ =>
            result = .value (.message 7 (.unknown []))) ∧
          (onDisk.TakesOne start more fun result w' => ∃ dir, result = .dir dir ∧
            dir.stored.expandWith w'.registry.expansion = some [5, 10, 4, 10, 2, 5, 6]) ↔
        Receiver.gathering.allIndices.lookup 1 ≠ some .empty ∧
          (pieces.filter (· ≠ [])).length = 1 ∧
          (pieces.head? ≠ some [] ∨
            Receiver.gathering.allIndices.lookup 1 = some (.message 7))) := by
  exact parseFromBuffer_agrees_iff .sample .gathering .around (.message 7) []
    { requests := [], registry := [] } (fun _ => List.cons_ne_nil _ _) rfl
    ⟨by decide, by decide⟩ rfl sample_correct
    (fun stored hstored => by
      obtain rfl := List.mem_singleton.mp hstored
      exact around_complete)
    (by decide)
    (fun sent hsent => by
      obtain rfl := List.mem_singleton.mp hsent
      exact ⟨1, by decide, by decide⟩)
    ⟨List.cons_ne_nil _ _, rfl⟩ (fun id stored hl => by cases hl)
    (fun id x y _ hy => by
      obtain ⟨stored, hl⟩ := Registry.exists_lookup_of_expansion hy
      cases hl)
    rfl (by decide) rfl

-- With content behind its block the object is yielded in two, and as a Dir in one.
theorem parseFromBuffer_tears :
    let object : Directory := { Directory.around with parts := [(1, [5, 10, 4]), (2, [9])] }
    let stream := serializeToBuffer .sample [.dir (.dir object) .bytes]
    let start : World := { requests := stream.items, registry := [] }
    let memory : Receiver := { Receiver.onDisk with partitionsMessageMode := .inl true }
    object.expandWith Registry.sample.expansion = some [5, 10, 4, 10, 2, 5, 6, 9] ∧
      stream.raised = none ∧
      (parseFromBuffer memory start).1 =
        .pure [.value (.bytes [5, 10, 4, 10, 2, 5, 6]), .value (.bytes [9])] ∧
      (parseFromBuffer .onDisk start).1.items.length = 1 :=
  ⟨by decide, by decide, by decide, by decide +kernel⟩

end BeeRpc
