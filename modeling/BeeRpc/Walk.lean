import BeeRpc.Splitter

namespace BeeRpc

open Wire Effect

namespace Splitting

-- What the reader has still to give, and all that it gives.
def ahead (s : Splitting) : Bytes :=
  s.reader.buffer.drop s.reader.offset ++ contentOf s.reader.chunks.items

def whole (s : Splitting) : Bytes := s.reader.hashed ++ contentOf s.reader.chunks.items

-- Bytes are taken from the reader; nothing else changes.
structure Takes (s : Splitting) (out : Bytes) (s' : Splitting) : Prop where
  ahead : s.ahead = out ++ s'.ahead
  position : s'.reader.position = s.reader.position
  whole : s'.whole = s.whole
  frame : s' = { s with reader := s'.reader }

-- They are counted too.
structure Reads (s : Splitting) (out : Bytes) (s' : Splitting) : Prop where
  ahead : s.ahead = out ++ s'.ahead
  position : s'.reader.position = s.reader.position + out.length
  whole : s'.whole = s.whole
  frame : s' = { s with reader := s'.reader }

theorem Takes.refl (s : Splitting) : s.Takes [] s := ⟨rfl, rfl, rfl, rfl⟩

theorem Takes.trans {s s' s'' : Splitting} {out more : Bytes} (h : s.Takes out s')
    (h' : s'.Takes more s'') : s.Takes (out ++ more) s'' := by
  refine ⟨?_, h'.position.trans h.position, h'.whole.trans h.whole, ?_⟩
  · rw [h.ahead, h'.ahead, List.append_assoc]
  · rw [h'.frame, h.frame]

theorem Reads.refl (s : Splitting) : s.Reads [] s := ⟨rfl, rfl, rfl, rfl⟩

theorem Reads.trans {s s' s'' : Splitting} {out more : Bytes} (h : s.Reads out s')
    (h' : s'.Reads more s'') : s.Reads (out ++ more) s'' := by
  refine ⟨?_, ?_, h'.whole.trans h.whole, ?_⟩
  · rw [h.ahead, h'.ahead, List.append_assoc]
  · rw [h'.position, h.position, List.length_append]
    omega
  · rw [h'.frame, h.frame]

theorem Takes.reads {s s' : Splitting} {out : Bytes} (h : s.Takes out s') :
    s.Reads out
      { s' with reader := { s'.reader with position := s'.reader.position + out.length } } := by
  refine ⟨h.ahead, ?_, h.whole, ?_⟩
  · exact congrArg (· + out.length) h.position
  · rw [h.frame]

theorem Takes.reads_nil {s s' : Splitting} (h : s.Takes [] s') : s.Reads [] s' :=
  ⟨h.ahead, h.position, h.whole, h.frame⟩

end Splitting

section Reader

variable {s : Splitting}

theorem contentOf_inl (chunk : Bytes) (items : List (Bytes ⊕ Block)) :
    contentOf (.inl chunk :: items) = chunk ++ contentOf items := by
  rw [contentOf, List.flatMap_cons]
  rfl

theorem contentOf_inr (block : Block) (items : List (Bytes ⊕ Block)) :
    contentOf (.inr block :: items) = contentOf items := by
  rw [contentOf, List.flatMap_cons]
  rfl

-- The next chunk that holds anything comes behind what is in the buffer.
theorem fillLoop_ends (raised : Option Err) (items : List (Bytes ⊕ Block))
    (h : contentOf items = contentOf s.reader.chunks.items) :
    Ends (SplitM.fillLoop raised items) s
      (fun filled s' => s.Takes [] s' ∧
        (filled = true → s'.reader.offset < s'.reader.buffer.length) ∧
        (filled = false → s'.ahead = s.reader.buffer.drop s.reader.offset)) fun _ _ => True := by
  induction items with
  | nil =>
      have hnil : contentOf s.reader.chunks.items = [] := h.symm
      have htakes : s.Takes [] { s with reader := { s.reader with chunks := .pure [] } } := by
        refine ⟨?_, rfl, ?_, rfl⟩
        · rw [Splitting.ahead, hnil]
          rfl
        · rw [Splitting.whole, Splitting.whole, hnil]
          rfl
      unfold SplitM.fillLoop
      rw [ends_bind]
      cases raised with
      | some e => exact trivial
      | none =>
          refine ⟨htakes, (fun h => by cases h), fun _ => ?_⟩
          exact List.append_nil _
  | cons item rest ih =>
      cases item with
      | inr block =>
          rw [contentOf_inr] at h
          exact ih h
      | inl chunk =>
          rw [contentOf_inl] at h
          unfold SplitM.fillLoop
          by_cases hchunk : chunk = []
          · rw [if_pos hchunk]
            rw [hchunk, List.nil_append] at h
            exact ih h
          · rw [if_neg hchunk, ends_bind]
            refine ⟨⟨?_, rfl, ?_, rfl⟩, fun _ => ?_, fun h => by cases h⟩
            · rw [Splitting.ahead, ← h, ← List.append_assoc]
              rfl
            · rw [Splitting.whole, Splitting.whole, ← h, ← List.append_assoc]
            · show 0 < (s.reader.buffer.drop s.reader.offset ++ chunk).length
              have hpos := List.length_pos_iff.mpr hchunk
              rw [List.length_append]
              omega

theorem atEnd_ends : Ends SplitM.atEnd s
    (fun ended s' => s.Takes [] s' ∧ (ended = true → s'.ahead = []) ∧
      (ended = false → s'.reader.offset < s'.reader.buffer.length)) fun _ _ => True := by
  unfold SplitM.atEnd
  simp only [ends_bind, ends_get]
  by_cases hbuffer : s.reader.offset < s.reader.buffer.length
  · rw [if_pos hbuffer]
    exact ⟨.refl s, (fun h => by cases h), fun _ => hbuffer⟩
  · rw [if_neg hbuffer]
    refine (fillLoop_ends s.reader.chunks.raised s.reader.chunks.items rfl).bind
      fun filled s' h => ?_
    obtain ⟨htakes, hfilled, hempty⟩ := h
    refine ⟨htakes, fun h => ?_, fun h => ?_⟩
    · cases filled with
      | true => cases h
      | false =>
          rw [hempty rfl]
          exact List.drop_eq_nil_of_le (Nat.le_of_not_lt hbuffer)
    · cases filled with
      | true => exact hfilled rfl
      | false => cases h

-- As far as there are any, a slice of the buffer.
theorem takeSlice_ends (n : Nat) : Ends (SplitM.takeSlice n) s
    (fun take s' => s.Takes take s' ∧ take.length ≤ n ∧
      (0 < n → s.reader.offset < s.reader.buffer.length → take ≠ [])) fun _ _ => True := by
  refine ⟨⟨?_, rfl, rfl, rfl⟩, ?_, ?_⟩
  · show s.reader.buffer.drop s.reader.offset ++ _ = _ ++ (List.drop _ s.reader.buffer ++ _)
    rw [← List.append_assoc]
    congr 1
    rw [← List.drop_drop, List.length_take]
    by_cases hn : n ≤ (s.reader.buffer.drop s.reader.offset).length
    · rw [Nat.min_eq_left hn, List.take_append_drop]
    · have hle := Nat.le_of_not_le hn
      rw [Nat.min_eq_right hle, List.take_of_length_le hle, List.drop_length, List.append_nil]
  · exact List.length_take_le ..
  · intro hn hbuffer hnil
    have hlength := congrArg List.length hnil
    rw [List.length_take, List.length_drop, List.length_nil] at hlength
    omega

theorem readLoop_ends (n fuel : Nat) (out : Bytes) : Ends (SplitM.readLoop n fuel out) s
    (fun result s' => ∃ more, result = out ++ more ∧ s.Takes more s' ∧ n ≤ result.length ∧
      (out.length ≤ n → result.length = n)) fun _ _ => True := by
  induction fuel generalizing out s with
  | zero => exact trivial
  | succ fuel ih =>
      unfold SplitM.readLoop
      by_cases hout : out.length < n
      · rw [if_pos hout]
        refine atEnd_ends.bind fun ended s₁ h => ?_
        obtain ⟨hends, -, -⟩ := h
        cases ended with
        | true => exact trivial
        | false =>
            refine (takeSlice_ends (n - out.length)).bind fun take s₂ h => ?_
            obtain ⟨htakes, hlength, -⟩ := h
            refine (ih (out ++ take)).mono (fun result s₃ h => ?_) fun _ _ h => h
            obtain ⟨more, rfl, hmore, hn, hexact⟩ := h
            refine ⟨take ++ more, List.append_assoc .., (hends.trans htakes).trans hmore, hn,
              fun _ => hexact ?_⟩
            rw [List.length_append]
            omega
      · rw [if_neg hout]
        refine ⟨[], (List.append_nil out).symm, .refl s, Nat.le_of_not_lt hout, fun h => ?_⟩
        omega

theorem read_ends (n : Nat) : Ends (SplitM.read n) s
    (fun out s' => s.Reads out s' ∧ out.length = n) fun _ _ => True := by
  unfold SplitM.read
  refine (readLoop_ends n (n + 1) []).bind fun out s₁ h => ?_
  obtain ⟨more, rfl, htakes, -, hexact⟩ := h
  have hlength : out.length = n := hexact (Nat.zero_le n)
  have hreads := htakes.reads
  rw [hlength] at hreads
  exact ⟨hreads, hlength⟩

-- A loop over what is read: what each round keeps holds behind the last one.
theorem copyLoop_ends {write : Bytes → SplitM Unit} {kept : Bytes → Splitting → Prop}
    (hround : ∀ copied s, kept copied s → ∀ take s', s.Reads take s' →
      Ends (write take) s' (fun _ s'' => kept (copied ++ take) s'') fun _ _ => True)
    (fuel n : Nat) (copied : Bytes) (hkept : kept copied s) :
    Ends (SplitM.copyLoop write fuel n) s
      (fun _ s' => ∃ more, more.length = n ∧ kept (copied ++ more) s') fun _ _ => True := by
  induction fuel generalizing n copied s with
  | zero => exact trivial
  | succ fuel ih =>
      unfold SplitM.copyLoop
      by_cases hn : n = 0
      · rw [if_pos hn]
        refine ⟨[], hn.symm, ?_⟩
        rw [List.append_nil]
        exact hkept
      · rw [if_neg hn]
        refine atEnd_ends.bind fun ended s₁ h => ?_
        obtain ⟨hends, -, -⟩ := h
        cases ended with
        | true => exact trivial
        | false =>
            refine (takeSlice_ends (min n CHUNK_SIZE)).bind fun take s₂ h => ?_
            obtain ⟨htakes, hlength, -⟩ := h
            refine (hround copied s hkept take _ (hends.trans htakes).reads).bind fun _ s₃ h => ?_
            refine (ih (n - take.length) (copied ++ take) h).mono (fun _ s₄ h => ?_) fun _ _ h => h
            obtain ⟨more, hmore, h⟩ := h
            refine ⟨take ++ more, ?_, ?_⟩
            · rw [List.length_append]
              omega
            · rwa [List.append_assoc] at h

theorem varintLoop_ends (left : Nat) (raw : Bytes) (value shift : Nat) (hvalue : value < 2 ^ shift) :
    Ends (SplitM.varintLoop left raw value shift) s
      (fun result s' => ∃ more n, result = (raw ++ more, value + n * 2 ^ shift) ∧ s.Reads more s' ∧
        Varint.decode? more = some n ∧ Varint.span? more = some more.length ∧ more.length ≤ left)
      fun _ _ => True := by
  induction left generalizing raw value shift s with
  | zero => exact trivial
  | succ left ih =>
      unfold SplitM.varintLoop
      refine (read_ends 1).bind fun out s₁ h => ?_
      obtain ⟨hreads, hlength⟩ := h
      obtain ⟨byte, rfl⟩ := List.length_eq_one_iff.mp hlength
      show Ends (if byte.toNat &&& 0x80 = 0 then
        pure (raw ++ [byte], value ||| (byte.toNat &&& 0x7F) <<< shift)
        else SplitM.varintLoop left (raw ++ [byte]) (value ||| (byte.toNat &&& 0x7F) <<< shift)
          (shift + 7)) s₁ _ _
      rw [Varint.or_group hvalue]
      by_cases hlast : byte.toNat < 128
      · rw [if_pos ((Varint.and_high byte).mpr hlast), Nat.mod_eq_of_lt hlast]
        refine ⟨[byte], byte.toNat, rfl, hreads, ?_, ?_, ?_⟩
        · rw [Varint.decode?, if_pos hlast]
        · rw [Varint.span?, if_pos hlast]
          rfl
        · rw [List.length_singleton]
          omega
      · rw [if_neg fun h => hlast ((Varint.and_high byte).mp h)]
        have hmore : value + byte.toNat % 128 * 2 ^ shift < 2 ^ (shift + 7) := by
          have hbyte := Nat.mod_lt byte.toNat (show 0 < 128 by omega)
          have hmul := Nat.mul_le_mul_right (2 ^ shift) (Nat.le_of_lt_succ hbyte)
          rw [Nat.pow_add]
          omega
        refine (ih (raw ++ [byte]) _ (shift + 7) hmore).mono (fun result s₂ h => ?_) fun _ _ h => h
        obtain ⟨more, n, rfl, hmore, hdecode, hspan, hleft⟩ := h
        refine ⟨byte :: more, byte.toNat % 128 + 128 * n, ?_, hreads.trans hmore, ?_, ?_, ?_⟩
        · have hvalue' : value + byte.toNat % 128 * 2 ^ shift + n * 2 ^ (shift + 7) =
              value + (byte.toNat % 128 + 128 * n) * 2 ^ shift := by
            rw [Nat.pow_add]
            ring
          rw [List.append_assoc, hvalue']
          rfl
        · rw [Varint.decode?, if_neg hlast, hdecode]
          rfl
        · rw [Varint.span?, if_neg hlast, hspan]
          rfl
        · rw [List.length_cons]
          omega

theorem varint_ends : Ends SplitM.varint s
    (fun result s' => s.Reads result.1 s' ∧ Varint.Spells result.1 result.2) fun _ _ => True := by
  refine (varintLoop_ends 10 [] 0 0 Nat.one_pos).mono (fun result s' h => ?_) fun _ _ h => h
  obtain ⟨more, n, rfl, hreads, hdecode, hspan, hlength⟩ := h
  refine ⟨hreads, ?_, hspan, hlength⟩
  show Varint.decode? more = some (0 + n * 2 ^ 0)
  rw [hdecode, Nat.zero_add, Nat.pow_zero, Nat.mul_one]

end Reader

-- What is stored under its digest is stored once.
def Registry.keep (env : Enviroment) (registry : Registry) (content : Bytes) : Registry :=
  if registry.blockExists (env.hashFactory content) then registry
  else registry.store (env.hashFactory content) (.file content)

def Registry.keepAll (env : Enviroment) (registry : Registry) (contents : List Bytes) : Registry :=
  contents.foldl (Registry.keep env) registry

-- Part files with these contents, numbered from `index` on.
def numbered : Nat → List Bytes → List (Nat × Bytes)
  | _, [] => []
  | index, content :: rest => (index, content) :: numbered (index + 1) rest

-- The block that a content is stored as, with its positions.
def entryOf (env : Enviroment) (hole : Bytes × List Nat) : BlockId × List Nat :=
  (env.hashFactory hole.1, hole.2)

namespace Splitting

variable {env : Enviroment}

-- These pieces have been written into the '.tmp-' directory.
structure Writes (env : Enviroment) (s : Splitting) (pieces : List (Piece (Bytes × List Nat))) :
    Prop where
  parts : ∃ directory, s.tmp = some directory ∧ directory.parts =
    numbered 1 ((Piece.cut [] pieces).1 ++ [(Piece.cut [] pieces).2])
  entries : s.writer.entries = weave 1 ((pieces.filterMap Piece.hole?).map (entryOf env))
  blocks : s.writer.blocks = (pieces.filterMap Piece.hole?).length

-- Bytes have been read, and pieces written.
structure Steps (env : Enviroment) (s : Splitting) (out : Bytes)
    (pieces : List (Piece (Bytes × List Nat))) (s' : Splitting) : Prop where
  ahead : s.ahead = out ++ s'.ahead
  position : s'.reader.position = s.reader.position + out.length
  whole : s'.whole = s.whole
  registry : s'.registry =
    s.registry.keepAll env ((pieces.filterMap Piece.hole?).map Prod.fst)
  writes : ∀ front, s.Writes env front → s'.Writes env (front ++ pieces)

-- A payload has been copied into a file of its own, and into the registry.
structure Copies (s : Splitting) (content : Bytes) (s' : Splitting) : Prop where
  ahead : s.ahead = content ++ s'.ahead
  position : s'.reader.position = s.reader.position + content.length
  whole : s'.whole = s.whole
  frame : s' = { s with reader := s'.reader, payload := some content }

structure Stores (env : Enviroment) (s : Splitting) (content : Bytes) (s' : Splitting) : Prop where
  ahead : s.ahead = content ++ s'.ahead
  position : s'.reader.position = s.reader.position + content.length
  whole : s'.whole = s.whole
  frame : s' =
    { s with reader := s'.reader, registry := s.registry.keep env content, payload := none }

theorem Steps.refl (s : Splitting) : s.Steps env [] [] s := by
  refine ⟨rfl, rfl, rfl, rfl, fun front h => ?_⟩
  rw [List.append_nil]
  exact h

theorem Steps.trans {s s' s'' : Splitting} {out more : Bytes}
    {pieces morePieces : List (Piece (Bytes × List Nat))} (h : s.Steps env out pieces s')
    (h' : s'.Steps env more morePieces s'') :
    s.Steps env (out ++ more) (pieces ++ morePieces) s'' := by
  refine ⟨?_, ?_, h'.whole.trans h.whole, ?_, fun front hfront => ?_⟩
  · rw [h.ahead, h'.ahead, List.append_assoc]
  · rw [h'.position, h.position, List.length_append]
    omega
  · rw [h'.registry, h.registry, List.filterMap_append, List.map_append, Registry.keepAll,
      Registry.keepAll, Registry.keepAll, List.foldl_append]
  · rw [← List.append_assoc]
    exact h'.writes _ (h.writes front hfront)

theorem Reads.steps {s s' : Splitting} {out : Bytes} (h : s.Reads out s') :
    s.Steps env out [] s' := by
  refine ⟨h.ahead, h.position, h.whole, ?_, fun front hfront => ?_⟩
  · rw [h.frame]
    rfl
  · rw [List.append_nil, h.frame]
    exact ⟨hfront.parts, hfront.entries, hfront.blocks⟩

end Splitting

section Writer

variable {env : Enviroment} {faults : SplitStep → Option Err} {s : Splitting}

theorem attempt_ends (step : SplitStep) : Ends (attempt faults step) s (fun _ s' => s' = s)
    fun _ _ => True := by
  unfold attempt
  split
  · exact trivial
  · exact rfl

theorem numbered_append (index : Nat) (front : List Bytes) (last : Bytes) :
    numbered index (front ++ [last]) = numbered index front ++ [(index + front.length, last)] := by
  induction front generalizing index with
  | nil => rfl
  | cons content front ih =>
      rw [List.cons_append, numbered, ih, numbered, List.cons_append, List.length_cons,
        Nat.add_assoc, Nat.add_comm 1]

theorem appendLast_append (data : Bytes) (front : List (Nat × Bytes)) (index : Nat)
    (content : Bytes) :
    appendLast data (front ++ [(index, content)]) = front ++ [(index, content ++ data)] := by
  induction front with
  | nil => rfl
  | cons part front ih =>
      have hne : front ++ [(index, content)] ≠ [] := by simp
      obtain ⟨next, rest, hrest⟩ := List.exists_cons_of_ne_nil hne
      rw [List.cons_append, List.cons_append, ← ih, hrest]
      rfl

theorem write_ends (data : Bytes) : Ends (SplitWriter.write faults data) s
    (fun _ s' => s.Steps env [] [.bytes data] s') fun _ _ => True := by
  unfold SplitWriter.write
  simp only [ends_bind, ends_get]
  refine (attempt_ends (.write s.reader.position)).mono (fun _ s₁ h => ?_) fun _ _ h => h
  subst h
  refine ⟨rfl, rfl, rfl, rfl, fun front hfront => ?_⟩
  obtain ⟨⟨directory, htmp, hparts⟩, hentries, hblocks⟩ := hfront
  have hcut : Piece.cut [] (front ++ [.bytes data]) =
      ((Piece.cut [] front).1, (Piece.cut [] front).2 ++ data) := by
    rw [Piece.cut_append]
    simp [Piece.cut]
  refine ⟨⟨{ directory with parts := appendLast data directory.parts }, ?_, ?_⟩, ?_, ?_⟩
  · show s₁.tmp.map _ = _
    rw [htmp]
    rfl
  · show appendLast data directory.parts = _
    rw [hparts, numbered_append, appendLast_append, hcut, numbered_append]
  · simpa using hentries
  · simpa using hblocks

-- Chunks that are copied one after another are one run of bytes.
theorem copy_ends (n : Nat) : Ends (SplitM.copy n (SplitWriter.write faults)) s
    (fun _ s' => ∃ content, content.length = n ∧ s.Steps env content [.bytes content] s')
    fun _ _ => True := by
  have hstart : s.Steps env [] [.bytes []] s := by
    refine ⟨rfl, rfl, rfl, rfl, fun front hfront => ?_⟩
    have hcut : Piece.cut [] (front ++ [.bytes []]) = Piece.cut [] front := by
      rw [Piece.cut_append]
      simp [Piece.cut]
    refine ⟨?_, ?_, ?_⟩
    · rw [hcut]
      exact hfront.parts
    · simpa using hfront.entries
    · simpa using hfront.blocks
  have hround : ∀ copied s₁, s.Steps env copied [.bytes copied] s₁ → ∀ take s₂, s₁.Reads take s₂ →
      Ends (SplitWriter.write faults take) s₂
        (fun _ s₃ => s.Steps env (copied ++ take) [.bytes (copied ++ take)] s₃) fun _ _ => True := by
    intro copied s₁ hcopied take s₂ hreads
    refine (@write_ends env faults s₂ take).mono (fun _ s₃ h => ?_) fun _ _ h => h
    have hall := (hcopied.trans hreads.steps).trans h
    rw [List.append_nil] at hall
    refine ⟨hall.ahead, hall.position, hall.whole, hall.registry, fun front hfront => ?_⟩
    obtain ⟨hparts, hentries, hblocks⟩ := hall.writes front hfront
    have hcut : Piece.cut [] (front ++ [.bytes (copied ++ take)]) =
        Piece.cut [] (front ++ ([.bytes copied] ++ [] ++ [.bytes take])) := by
      rw [Piece.cut_append, Piece.cut_append]
      simp [Piece.cut]
    refine ⟨?_, ?_, ?_⟩
    · rw [hcut]
      exact hparts
    · simpa using hentries
    · simpa using hblocks
  refine (copyLoop_ends hround (n + 1) n [] hstart).mono (fun _ s' h => ?_) fun _ _ h => h
  obtain ⟨content, hlength, h⟩ := h
  exact ⟨content, hlength, h⟩

-- The number that the next part gets.
theorem weave_count (index : Nat) (blocks : List (BlockId × List Nat)) :
    (weave index blocks).countP JsonEntry.isPart = blocks.length + 1 := by
  induction blocks generalizing index with
  | nil => rfl
  | cons block blocks ih =>
      rw [weave, List.countP_cons, List.countP_cons, ih]
      rfl

theorem weave_append (index : Nat) (blocks : List (BlockId × List Nat)) (block : BlockId × List Nat) :
    weave index (blocks ++ [block]) =
      weave index blocks ++ [.block block.1 block.2, .part (index + blocks.length + 1)] := by
  induction blocks generalizing index with
  | nil => rfl
  | cons first blocks ih =>
      rw [List.cons_append, weave, weave, ih, List.length_cons, Nat.add_assoc index 1,
        Nat.add_comm 1]
      rfl

theorem block_ends (content : Bytes) (positions : List Nat) :
    Ends (SplitWriter.block faults (env.hashFactory content) positions) s
      (fun _ s' => s'.reader = s.reader ∧ s'.registry = s.registry ∧
        ∀ front, s.Writes env front → s'.Writes env (front ++ [.hole (content, positions)]))
      fun _ _ => True := by
  unfold SplitWriter.block SplitWriter.openPart
  simp only [ends_bind, ends_modify, ends_get]
  refine (attempt_ends _).mono (fun _ s₁ h => ?_) fun _ _ h => h
  subst h
  refine ⟨rfl, rfl, fun front hfront => ?_⟩
  obtain ⟨⟨directory, htmp, hparts⟩, hentries, hblocks⟩ := hfront
  have hcut : Piece.cut [] (front ++ [.hole (content, positions)]) =
      ((Piece.cut [] front).1 ++ [(Piece.cut [] front).2], []) := by
    rw [Piece.cut_append]
    simp [Piece.cut]
  have hholes : (front ++ [Piece.hole (content, positions)]).filterMap Piece.hole? =
      front.filterMap Piece.hole? ++ [(content, positions)] := by
    simp
  have hlength : ((front.filterMap Piece.hole?).map (entryOf env)).length =
      (front.filterMap Piece.hole?).length := List.length_map _
  have hindex : (s.writer.entries ++ [JsonEntry.block (env.hashFactory content) positions]).countP
      JsonEntry.isPart + 1 = (front.filterMap Piece.hole?).length + 2 := by
    rw [List.countP_append, hentries, weave_count, hlength]
    rfl
  refine ⟨⟨{ directory with
      parts := directory.parts ++ [((front.filterMap Piece.hole?).length + 2, [])] }, ?_, ?_⟩, ?_, ?_⟩
  · rw [← hindex]
    show s.tmp.map _ = _
    rw [htmp]
    rfl
  · rw [hcut, numbered_append, List.length_append, List.length_singleton, Piece.cut_length, hparts]
    have hnext : (front.filterMap Piece.hole?).length + 2 =
        1 + ((front.filterMap Piece.hole?).length + 1) := by omega
    rw [hnext]
  · rw [hholes, List.map_append, List.map_singleton, weave_append, hlength, ← hentries]
    show (s.writer.entries ++ [.block _ positions]) ++ [.part _] = _
    rw [hindex, List.append_assoc, Nat.add_comm 1]
    rfl
  · rw [hholes, List.length_append]
    exact congrArg (· + 1) hblocks

theorem writePayload_ends {s₁ s₂ : Splitting} {copied take : Bytes} (hcopied : s.Copies copied s₁)
    (hreads : s₁.Reads take s₂) :
    Ends (writePayload faults take) s₂ (fun _ s₃ => s.Copies (copied ++ take) s₃)
      fun _ _ => True := by
  unfold writePayload
  simp only [ends_bind, ends_get]
  refine (attempt_ends _).mono (fun _ s₃ h => ?_) fun _ _ h => h
  subst h
  refine ⟨?_, ?_, hreads.whole.trans hcopied.whole, ?_⟩
  · rw [hcopied.ahead, hreads.ahead, List.append_assoc]
    rfl
  · show s₃.reader.position = _
    rw [hreads.position, hcopied.position, List.length_append]
    omega
  · rw [hreads.frame, hcopied.frame]
    rfl

theorem keep_of_exists {registry : Registry} {content : Bytes}
    (h : registry.blockExists (env.hashFactory content) = true) :
    registry.keep env content = registry := by
  rw [Registry.keep, if_pos h]

theorem keep_of_not_exists {registry : Registry} {content : Bytes}
    (h : ¬ registry.blockExists (env.hashFactory content) = true) :
    registry.keep env content = registry.store (env.hashFactory content) (.file content) := by
  rw [Registry.keep, if_neg h]

-- A payload that is copied beside the blocks, and then among them.
theorem storePayload_ends (length : Nat) : Ends (storePayload env faults length) s
    (fun id s' => ∃ content, content.length = length ∧ id = env.hashFactory content ∧
      s.Stores env content s') fun _ _ => True := by
  unfold storePayload
  rw [ends_tryCatch]
  unfold copyPayload
  simp only [ends_bind, ends_get]
  refine (attempt_ends _).mono (fun _ s₁ h => ?_) fun _ _ _ => trivial
  subst h
  have hstart : s₁.Copies [] { s₁ with payload := some [] } := ⟨rfl, rfl, rfl, rfl⟩
  refine (copyLoop_ends (fun _ _ h _ _ => writePayload_ends h) (length + 1) length [] hstart).mono
    (fun _ s₂ h => ?_) fun _ _ _ => trivial
  obtain ⟨content, hlength, hcopies⟩ := h
  rw [List.nil_append] at hcopies
  have hcontent : s₂.payload.getD [] = content := by
    rw [hcopies.frame]
    rfl
  have hregistry : s₂.registry = s₁.registry := by rw [hcopies.frame]
  simp only [hcontent, hregistry]
  by_cases hexists : s₁.registry.blockExists (env.hashFactory content) = true
  · rw [if_pos hexists]
    simp only [ends_bind, ends_modify]
    refine (attempt_ends _).mono (fun _ s₃ h => ?_) fun _ _ _ => trivial
    subst h
    refine ⟨content, hlength, rfl, hcopies.ahead, hcopies.position, hcopies.whole, ?_⟩
    rw [keep_of_exists hexists, hcopies.frame]
  · rw [if_neg hexists]
    simp only [ends_bind, ends_modify]
    refine (attempt_ends _).mono (fun _ s₃ h => ?_) fun _ _ _ => trivial
    subst h
    refine ⟨content, hlength, rfl, hcopies.ahead, hcopies.position, hcopies.whole, ?_⟩
    rw [keep_of_not_exists hexists, hcopies.frame]

theorem storeBlock_ends (length : Nat) (positions : List Nat) :
    Ends (storePayload env faults length >>= fun id => SplitWriter.block faults id positions) s
      (fun _ s' => ∃ content, content.length = length ∧
        s.Steps env content [.hole (content, positions)] s') fun _ _ => True := by
  refine (storePayload_ends length).bind fun id s₁ h => ?_
  obtain ⟨content, hlength, rfl, hstores⟩ := h
  refine (block_ends content positions).mono (fun _ s₂ h => ?_) fun _ _ h => h
  obtain ⟨hreader, hregistry, hwrites⟩ := h
  refine ⟨content, hlength, ?_, ?_, ?_, ?_, fun front hfront => hwrites front ?_⟩
  · rw [Splitting.ahead, Splitting.ahead, hreader]
    exact hstores.ahead
  · rw [hreader]
    exact hstores.position
  · rw [Splitting.whole, hreader]
    exact hstores.whole
  · rw [hregistry, hstores.frame]
    rfl
  · rw [hstores.frame]
    exact ⟨hfront.parts, hfront.entries, hfront.blocks⟩

-- What is read is written as it is.
theorem pass_ends {m : SplitM Bytes} {P : Bytes → Prop}
    (hm : ∀ s, Ends m s (fun raw s' => s.Reads raw s' ∧ P raw) fun _ _ => True) :
    Ends (m >>= fun raw => SplitWriter.write faults raw) s
      (fun _ s' => ∃ raw, P raw ∧ s.Steps env raw [.bytes raw] s') fun _ _ => True := by
  refine (hm s).bind fun raw s₁ h => ?_
  obtain ⟨hreads, hraw⟩ := h
  refine (@write_ends env faults s₁ raw).mono (fun _ s₂ h => ?_) fun _ _ h => h
  have hall := hreads.steps.trans h
  rw [List.append_nil, List.nil_append] at hall
  exact ⟨raw, hraw, hall⟩

end Writer

section Walk

variable {env : Enviroment} {faults : SplitStep → Option Err} {δ φ : Type}
  {types : Descriptors δ φ} {shouldSplit : φ → Nat → Bool}

-- What the walk has read is a sequence of fields, and it has written these with the contents that
-- the policy names left out.
def Splitting.Walks (env : Enviroment) (types : Descriptors δ φ) (shouldSplit : φ → Nat → Bool)
    (descriptor : Option δ) (chain : List Nat) (s s' : Splitting) : Prop :=
  ∃ fields : Fields φ, fields.Encodes types descriptor ∧
    s.Steps env fields.render (fields.pieces shouldSplit s.reader.position chain) s'

theorem Splitting.Walks.refl (descriptor : Option δ) (chain : List Nat) (s : Splitting) :
    s.Walks env types shouldSplit descriptor chain s := ⟨.nil, trivial, .refl s⟩

theorem Splitting.Walks.trans {descriptor : Option δ} {chain : List Nat} {s s' s'' : Splitting}
    (h : s.Walks env types shouldSplit descriptor chain s')
    (h' : s'.Walks env types shouldSplit descriptor chain s'') :
    s.Walks env types shouldSplit descriptor chain s'' := by
  obtain ⟨fields, hencodes, hsteps⟩ := h
  obtain ⟨more, hmore, hsteps'⟩ := h'
  refine ⟨fields.append more, fields.encodes_append more hencodes hmore, ?_⟩
  have hposition : s'.reader.position = s.reader.position + fields.size := hsteps.position
  rw [Fields.render_append, Fields.pieces_append, ← hposition]
  exact hsteps.trans hsteps'

-- What the walk in a message is to do.
def Splitting.InnerWalks (env : Enviroment) (types : Descriptors δ φ) (shouldSplit : φ → Nat → Bool)
    (inner : δ → Nat → List Nat → SplitM Unit) : Prop :=
  ∀ message last chain s, Ends (inner message last chain) s
    (fun _ s' => s.Walks env types shouldSplit (some message) chain s' ∧ s'.reader.position = last)
    fun _ _ => True

variable {inner : δ → Nat → List Nat → SplitM Unit} {s : Splitting}

-- One field, behind its tag.
theorem walkDelimited_ends (hinner : Splitting.InnerWalks env types shouldSplit inner)
    (descriptor : Option δ) (chain : List Nat) {before : Splitting} {tag : Bytes} {n : Nat}
    (htag : Varint.Spells tag n) (htype : n &&& 7 = 2)
    (hbefore : before.Steps env tag [.bytes tag] s) :
    Ends (walkDelimited env faults types shouldSplit inner descriptor (n >>> 3) chain) s
      (fun _ s' => before.Walks env types shouldSplit descriptor chain s') fun _ _ => True := by
  have htags : ∀ field, field = descriptor.bind (fun d => types.fieldsByNumber d (n >>> 3)) →
      Fields.Tags types descriptor tag 2 field := fun field h => ⟨n, htag, htype, h⟩
  unfold walkDelimited
  simp only [ends_bind, ends_get]
  refine varint_ends.mono (fun result s₁ h => ?_) fun _ _ h => h
  obtain ⟨hreads, hlength⟩ := h
  refine (@write_ends env faults s₁ result.1).mono (fun _ s₂ h => ?_) fun _ _ h => h
  have hlengthed := (hbefore.trans hreads.steps).trans h
  rw [List.append_nil, List.append_nil] at hlengthed
  have hcopied : ∀ field content s₃, Fields.Tags types descriptor tag 2 field →
      field.bind types.messageType = none → content.length = result.2 →
      Fields.taken shouldSplit field content.length = false →
      s₂.Steps env content [.bytes content] s₃ →
      before.Walks env types shouldSplit descriptor chain s₃ := by
    intro field content s₃ htag hfield hcontent htaken hsteps
    refine ⟨.payload tag result.1 content field .nil, ⟨htag, hfield, hcontent ▸ hlength, trivial⟩, ?_⟩
    have hall := hlengthed.trans hsteps
    simp only [Fields.render, Fields.pieces, htaken, List.append_nil]
    exact hall
  cases hfield : descriptor.bind fun d => types.fieldsByNumber d (n >>> 3) with
  | none =>
      refine (@copy_ends env faults s₂ result.2).mono (fun _ s₃ h => ?_) fun _ _ h => h
      obtain ⟨content, hcontent, hsteps⟩ := h
      exact hcopied none content s₃ (htags _ hfield.symm) rfl hcontent rfl hsteps
  | some field =>
      cases hmessage : types.messageType field with
      | some message =>
          simp only [ends_bind, ends_get, hmessage]
          refine (hinner message _ _ s₂).mono (fun _ s₃ h => ?_) fun _ _ h => h
          obtain ⟨⟨body, hbody, hsteps⟩, hposition⟩ := h
          have hsize : result.2 = body.size := by
            have hlast : s₃.reader.position = s₂.reader.position + body.size := hsteps.position
            omega
          have hbase : s₂.reader.position =
              before.reader.position + tag.length + result.1.length := by
            rw [hlengthed.position, List.length_append, Nat.add_assoc]
          have hall := hlengthed.trans hsteps
          rw [hbefore.position, hbase] at hall
          refine ⟨.message tag result.1 body .nil,
            ⟨⟨field, message, htags _ hfield.symm, hmessage, hbody⟩, hsize ▸ hlength, trivial⟩, ?_⟩
          simp only [Fields.render, Fields.pieces, List.append_nil]
          exact hall
      | none =>
          simp only [ends_bind, ends_get, hmessage]
          refine (attempt_ends _).mono (fun _ s₃ h => ?_) fun _ _ h => h
          subst h
          have hplain : Option.bind (some field) types.messageType = none := hmessage
          by_cases hsplit : shouldSplit field result.2 = true
          · rw [if_pos hsplit]
            refine (@storeBlock_ends env faults s₃ result.2 _).mono (fun _ s₄ h => ?_)
              fun _ _ h => h
            obtain ⟨content, hcontent, hsteps⟩ := h
            have htaken : Fields.taken shouldSplit (some field) content.length = true := by
              rw [hcontent]
              exact hsplit
            have hall := hlengthed.trans hsteps
            rw [hbefore.position] at hall
            refine ⟨.payload tag result.1 content (some field) .nil,
              ⟨htags _ hfield.symm, hplain, hcontent ▸ hlength, trivial⟩, ?_⟩
            simp only [Fields.render, Fields.pieces, htaken, if_true, List.append_nil]
            exact hall
          · rw [if_neg hsplit]
            refine (@copy_ends env faults s₃ result.2).mono (fun _ s₄ h => ?_) fun _ _ h => h
            obtain ⟨content, hcontent, hsteps⟩ := h
            have htaken : Fields.taken shouldSplit (some field) content.length = false := by
              rw [hcontent]
              exact Bool.eq_false_of_not_eq_true hsplit
            exact hcopied _ content s₄ (htags _ hfield.symm) hplain hcontent htaken hsteps

theorem walkField_ends (hinner : Splitting.InnerWalks env types shouldSplit inner)
    (descriptor : Option δ) (chain : List Nat) :
    Ends (walkField env faults types shouldSplit inner descriptor chain) s
      (fun _ s' => s.Walks env types shouldSplit descriptor chain s') fun _ _ => True := by
  unfold walkField
  refine varint_ends.bind fun result s₁ h => ?_
  obtain ⟨hreads, htag⟩ := h
  simp only [ends_bind]
  refine (@write_ends env faults s₁ result.1).mono (fun _ s₂ h => ?_) fun _ _ h => h
  have htagged := hreads.steps.trans h
  rw [List.append_nil, List.nil_append] at htagged
  have hplain : ∀ value s₃, s₂.Steps env value [.bytes value] s₃ →
      Fields.Encodes types descriptor (.plain result.1 value .nil : Fields φ) →
      s.Walks env types shouldSplit descriptor chain s₃ := by
    intro value s₃ hsteps hencodes
    refine ⟨.plain result.1 value .nil, hencodes, ?_⟩
    simp only [Fields.render, Fields.pieces, List.append_nil]
    exact htagged.trans hsteps
  have htags : ∀ wireType, result.2 &&& 7 = wireType → Fields.Tags types descriptor result.1 wireType
      (descriptor.bind fun d => types.fieldsByNumber d (result.2 >>> 3)) :=
    fun wireType h => ⟨result.2, htag, h, rfl⟩
  by_cases hvarint : result.2 &&& 7 = 0
  · rw [if_pos hvarint]
    refine varint_ends.bind fun value s₃ h => ?_
    obtain ⟨hvalue, hspells⟩ := h
    refine (@write_ends env faults s₃ value.1).mono (fun _ s₄ h => ?_) fun _ _ h => h
    have hpassed := hvalue.steps.trans h
    rw [List.append_nil, List.nil_append] at hpassed
    exact hplain value.1 s₄ hpassed ⟨⟨_, Or.inl ⟨htags 0 hvarint, value.2, hspells⟩⟩, trivial⟩
  rw [if_neg hvarint]
  by_cases hfixed64 : result.2 &&& 7 = 1
  · rw [if_pos hfixed64]
    refine (@pass_ends env faults s₂ _ _ fun _ => read_ends 8).mono (fun _ s₃ h => ?_) fun _ _ h => h
    obtain ⟨value, hlength, hpassed⟩ := h
    exact hplain value s₃ hpassed ⟨⟨_, Or.inr (Or.inl ⟨htags 1 hfixed64, hlength⟩)⟩, trivial⟩
  rw [if_neg hfixed64]
  by_cases hfixed32 : result.2 &&& 7 = 5
  · rw [if_pos hfixed32]
    refine (@pass_ends env faults s₂ _ _ fun _ => read_ends 4).mono (fun _ s₃ h => ?_) fun _ _ h => h
    obtain ⟨value, hlength, hpassed⟩ := h
    exact hplain value s₃ hpassed ⟨⟨_, Or.inr (Or.inr ⟨htags 5 hfixed32, hlength⟩)⟩, trivial⟩
  rw [if_neg hfixed32]
  by_cases hdelimited : result.2 &&& 7 = 2
  · rw [if_pos hdelimited]
    exact walkDelimited_ends hinner descriptor chain htag hdelimited htagged
  · rw [if_neg hdelimited]
    exact trivial

theorem walkGoesOn_ends (stop : Option Nat) : Ends (walkGoesOn stop) s
    (fun goesOn s' => s.Reads [] s' ∧ (goesOn = false → stop = none → s'.ahead = [])) fun _ _ => True := by
  unfold walkGoesOn
  cases stop with
  | some stop => exact ⟨.refl s, fun _ h => by cases h⟩
  | none =>
      refine atEnd_ends.bind fun ended s₁ h => ?_
      obtain ⟨htakes, hends, -⟩ := h
      refine ⟨htakes.reads_nil, fun h _ => hends ?_⟩
      simpa using h

theorem walk_ends (fuel : Nat) (descriptor : Option δ) (stop : Option Nat) (chain : List Nat)
    (s : Splitting) :
    Ends (walk env faults types shouldSplit fuel descriptor stop chain) s
      (fun _ s' => s.Walks env types shouldSplit descriptor chain s' ∧
        (stop = none → s'.ahead = []) ∧ ∀ last, stop = some last → s'.reader.position = last)
      fun _ _ => True := by
  induction fuel generalizing descriptor stop chain s with
  | zero => exact trivial
  | succ fuel ih =>
      have hinner : Splitting.InnerWalks env types shouldSplit fun message last chain =>
          walk env faults types shouldSplit fuel (some message) (some last) chain := by
        intro message last chain s
        refine (ih (some message) (some last) chain s).mono (fun _ s' h => ?_) fun _ _ h => h
        exact ⟨h.1, h.2.2 last rfl⟩
      unfold walk
      refine (walkGoesOn_ends stop).bind fun goesOn s₁ h => ?_
      obtain ⟨hreads, hends⟩ := h
      have hwalks : s.Walks env types shouldSplit descriptor chain s₁ := ⟨.nil, trivial, hreads.steps⟩
      cases goesOn with
      | true =>
          refine (walkField_ends hinner descriptor chain).bind fun _ s₂ h => ?_
          refine (ih descriptor stop chain s₂).mono (fun _ s₃ h' => ?_) fun _ _ h => h
          exact ⟨(hwalks.trans h).trans h'.1, h'.2⟩
      | false =>
          cases stop with
          | none => exact ⟨hwalks, fun _ => hends rfl rfl, fun _ h => by cases h⟩
          | some stop =>
              simp only [Bool.false_eq_true, if_false, ends_bind, ends_get]
              by_cases hstop : s₁.reader.position = stop
              · rw [if_neg (not_not.mpr hstop)]
                refine ⟨hwalks, (fun h => by cases h), fun last h => ?_⟩
                rw [hstop]
                exact Option.some.inj h
              · rw [if_pos hstop]
                exact trivial

end Walk

end BeeRpc
