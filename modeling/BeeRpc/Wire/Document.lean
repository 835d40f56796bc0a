import BeeRpc.Wire.Varint
import Mathlib.Algebra.Order.Group.Int
import Mathlib.Tactic.Ring

namespace Wire

-- Encoded fields with holes in them. A field that encloses a hole is spelled out,
-- its tag kept as bytes of any width; the bytes around the holes are left as they are.
inductive Document (ι : Type) where
  | nil
  | raw (bytes : Bytes) (rest : Document ι)
  | sub (tag : Bytes) (body rest : Document ι)
  | hole (tag : Bytes) (i : ι) (rest : Document ι)
  deriving Repr, DecidableEq

-- A run of bytes or a hole, in the order of the encoding.
inductive Piece (ι : Type) where
  | bytes (b : Bytes)
  | hole (i : ι)
  deriving Repr, DecidableEq

-- The length varint of a field that encloses a hole, or of the hole's own field:
-- where it begins under the first filling, and what it states under each of the two.
structure Mark where
  position : Nat
  old : Nat
  new : Nat
  leaf : Bool
  deriving Repr, DecidableEq

namespace Document

variable {ι κ : Type}

def holes : Document ι → List ι
  | nil => []
  | raw _ rest => rest.holes
  | sub _ body rest => body.holes ++ rest.holes
  | hole _ i rest => i :: rest.holes

-- The encoding with every hole filled: all lengths are those of the filled content.
def render (fill : ι → Bytes) : Document ι → Bytes
  | nil => []
  | raw bytes rest => bytes ++ rest.render fill
  | sub tag body rest => tag ++ delimited (body.render fill) ++ rest.render fill
  | hole tag i rest => tag ++ delimited (fill i) ++ rest.render fill

def size (fill : ι → Bytes) (doc : Document ι) : Nat := (doc.render fill).length

-- Bytes taken by a length-delimited content of the given length.
def delimitedSize (n : Nat) : Nat := (Varint.encode n).length + n

-- For each hole, the position and the value of the length varint of every field
-- around it, outermost first, and then those of its own field.
def spine (fill : ι → Bytes) (base : Nat) : Document ι → List (ι × List (Nat × Nat))
  | nil => []
  | raw bytes rest => rest.spine fill (base + bytes.length)
  | sub tag body rest =>
      let position := base + tag.length
      let length := body.size fill
      (body.spine fill (position + (Varint.encode length).length)).map
        (fun entry => (entry.1, (position, length) :: entry.2)) ++
        rest.spine fill (position + delimitedSize length)
  | hole tag i rest =>
      let position := base + tag.length
      (i, [(position, (fill i).length)]) ::
        rest.spine fill (position + delimitedSize (fill i).length)

def chains (fill : ι → Bytes) (base : Nat) (doc : Document ι) : List (ι × List Nat) :=
  (doc.spine fill base).map fun entry => (entry.1, entry.2.map Prod.fst)

-- Every length varint that lies on some chain, in the order of the encoding.
def marks (fill fill' : ι → Bytes) (base : Nat) : Document ι → List Mark
  | nil => []
  | raw bytes rest => rest.marks fill fill' (base + bytes.length)
  | sub tag body rest =>
      let position := base + tag.length
      let length := body.size fill
      if body.holes = [] then rest.marks fill fill' (position + delimitedSize length)
      else
        ⟨position, length, body.size fill', false⟩ ::
          body.marks fill fill' (position + (Varint.encode length).length) ++
          rest.marks fill fill' (position + delimitedSize length)
  | hole tag i rest =>
      let position := base + tag.length
      ⟨position, (fill i).length, (fill' i).length, true⟩ ::
        rest.marks fill fill' (position + delimitedSize (fill i).length)

-- For each hole the position of its own length varint.
def leaves (fill : ι → Bytes) (base : Nat) : Document ι → List (ι × Nat)
  | nil => []
  | raw bytes rest => rest.leaves fill (base + bytes.length)
  | sub tag body rest =>
      let position := base + tag.length
      body.leaves fill (position + (Varint.encode (body.size fill)).length) ++
        rest.leaves fill (position + delimitedSize (body.size fill))
  | hole tag i rest =>
      let position := base + tag.length
      (i, position) :: rest.leaves fill (position + delimitedSize (fill i).length)

-- The encoding with the holes left open.
def pieces (fill : ι → Bytes) : Document ι → List (Piece ι)
  | nil => []
  | raw bytes rest => .bytes bytes :: rest.pieces fill
  | sub tag body rest =>
      .bytes tag :: .bytes (Varint.encode (body.size fill)) :: body.pieces fill ++ rest.pieces fill
  | hole tag i rest =>
      .bytes tag :: .bytes (Varint.encode (fill i).length) :: .hole i :: rest.pieces fill

-- The fields of one encoding and then those of another.
def append : Document ι → Document ι → Document ι
  | nil, more => more
  | raw bytes rest, more => raw bytes (rest.append more)
  | sub tag body rest, more => sub tag body (rest.append more)
  | hole tag i rest, more => hole tag i (rest.append more)

-- No field around a hole, and no hole, comes without a tag.
def Tagged : Document ι → Prop
  | nil => True
  | raw _ rest => rest.Tagged
  | sub tag body rest => tag ≠ [] ∧ body.Tagged ∧ rest.Tagged
  | hole tag _ rest => tag ≠ [] ∧ rest.Tagged

def map (f : ι → κ) : Document ι → Document κ
  | nil => nil
  | raw bytes rest => raw bytes (rest.map f)
  | sub tag body rest => sub tag (body.map f) (rest.map f)
  | hole tag i rest => hole tag (f i) (rest.map f)

end Document

namespace Piece

variable {ι κ : Type}

def map (f : ι → κ) : Piece ι → Piece κ
  | bytes b => bytes b
  | hole i => hole (f i)

def hole? : Piece ι → Option ι
  | bytes _ => none
  | hole i => some i

def render (fill : ι → Bytes) : Piece ι → Bytes
  | bytes b => b
  | hole i => fill i

-- The bytes before the first hole, between holes and after the last one; `current`
-- stands in front of the first of them.
def cut (current : Bytes) : List (Piece ι) → List Bytes × Bytes
  | [] => ([], current)
  | bytes b :: rest => cut (current ++ b) rest
  | hole _ :: rest => (current :: (cut [] rest).1, (cut [] rest).2)

-- The runs between holes and the holes themselves, in turn.
def alternate (current : Bytes) : List (Piece ι) → List (Bytes ⊕ ι)
  | [] => [.inl current]
  | bytes b :: rest => alternate (current ++ b) rest
  | hole i :: rest => .inl current :: .inr i :: alternate [] rest

attribute [local simp] map render cut alternate

theorem cut_append (current : Bytes) (left right : List (Piece ι)) :
    cut current (left ++ right) =
      ((cut current left).1 ++ (cut (cut current left).2 right).1,
        (cut (cut current left).2 right).2) := by
  induction left generalizing current with
  | nil => simp
  | cons piece left ih =>
      cases piece with
      | bytes b => simp [ih]
      | hole i => simp [ih]

@[simp] theorem filterMap_hole?_bytes (b : Bytes) (rest : List (Piece ι)) :
    (bytes b :: rest).filterMap hole? = rest.filterMap hole? := rfl

@[simp] theorem filterMap_hole?_hole (i : ι) (rest : List (Piece ι)) :
    (hole i :: rest).filterMap hole? = i :: rest.filterMap hole? := rfl

theorem cut_length (current : Bytes) (pieces : List (Piece ι)) :
    (cut current pieces).1.length = (pieces.filterMap hole?).length := by
  induction pieces generalizing current with
  | nil => rfl
  | cons piece pieces ih =>
      cases piece with
      | bytes b => exact ih _
      | hole i => simp [ih]

-- What stands in front is in front of the first run, and changes nothing behind it.
theorem cut_current (pieces : List (Piece ι)) :
    ∃ back right, ∀ current,
      (cut current pieces).1 ++ [(cut current pieces).2] = (current ++ back) :: right := by
  induction pieces with
  | nil => exact ⟨[], [], fun current => by simp⟩
  | cons piece pieces ih =>
      cases piece with
      | bytes b =>
          obtain ⟨back, right, h⟩ := ih
          exact ⟨b ++ back, right, fun current => by rw [cut, h, List.append_assoc]⟩
      | hole i =>
          exact ⟨[], (cut [] pieces).1 ++ [(cut [] pieces).2], fun current => by
            rw [cut, List.cons_append, List.append_nil]⟩

theorem encode_eq_of_cut {pieces pieces' : List (Piece ι)} {current : Bytes} {m n : Nat}
    (h : cut (current ++ Varint.encode m) pieces = cut (current ++ Varint.encode n) pieces') :
    m = n := by
  obtain ⟨back, right, hcut⟩ := cut_current pieces
  obtain ⟨back', right', hcut'⟩ := cut_current pieces'
  have hfirst := hcut (current ++ Varint.encode m)
  rw [h, hcut'] at hfirst
  have hbytes := (List.cons.inj hfirst).1
  rw [List.append_assoc, List.append_assoc, List.append_cancel_left_eq] at hbytes
  rw [← Varint.decodeUpToEnd_encode m back, ← hbytes, Varint.decodeUpToEnd_encode]

theorem alternate_map (f : ι → κ) (current : Bytes) (pieces : List (Piece ι)) :
    alternate current (pieces.map (map f)) = (alternate current pieces).map (Sum.map id f) := by
  induction pieces generalizing current with
  | nil => rfl
  | cons piece pieces ih =>
      cases piece with
      | bytes b => exact ih _
      | hole i => simp [ih]

theorem alternate_cons (rest : List (Piece ι)) :
    ∃ back right, ∀ current, alternate current rest = .inl (current ++ back) :: right := by
  induction rest with
  | nil => exact ⟨[], [], fun current => by simp⟩
  | cons piece rest ih =>
      cases piece with
      | bytes b =>
          obtain ⟨back, right, h⟩ := ih
          exact ⟨b ++ back, right, fun current => by simp [h]⟩
      | hole i => exact ⟨[], .inr i :: alternate [] rest, fun current => by simp⟩

-- A run of bytes stands in one of the parts, behind the same ones whatever it is.
theorem alternate_split (fill : ι → Bytes) (current : Bytes) (pre post : List (Piece ι)) :
    ∃ left front back right,
      (∀ b, alternate current (pre ++ .bytes b :: post) =
        left ++ .inl (front ++ b ++ back) :: right) ∧
      (left.flatMap fun run => run.elim id fill).length + front.length =
        current.length + (pre.flatMap (render fill)).length ∧
      ∀ i, .inr i ∈ left → .hole i ∈ pre := by
  induction pre generalizing current with
  | nil =>
      obtain ⟨back, right, h⟩ := alternate_cons post
      exact ⟨[], current, back, right, fun b => by simp [h], by simp, by simp⟩
  | cons piece pre ih =>
      cases piece with
      | bytes b' =>
          obtain ⟨left, front, back, right, h, hlen, hin⟩ := ih (current ++ b')
          refine ⟨left, front, back, right, fun b => by simp [h], ?_,
            fun i hi => List.mem_cons_of_mem _ (hin i hi)⟩
          simp only [List.flatMap_cons, render, List.length_append] at hlen ⊢
          omega
      | hole i =>
          obtain ⟨left, front, back, right, h, hlen, hin⟩ := ih []
          refine ⟨.inl current :: .inr i :: left, front, back, right,
            fun b => by simp [h], ?_, ?_⟩
          · simp only [List.flatMap_cons, render, List.length_append, Sum.elim_inl, Sum.elim_inr,
              id_eq, List.length_nil] at hlen ⊢
            omega
          · intro j hj
            simp only [List.mem_cons, reduceCtorEq, Sum.inr.injEq, false_or] at hj
            rcases hj with rfl | hj
            · exact List.mem_cons_self ..
            · exact List.mem_cons_of_mem _ (hin j hj)

theorem alternate_render (fill : ι → Bytes) (current : Bytes) (pieces : List (Piece ι)) :
    (alternate current pieces).flatMap (fun run => run.elim id fill) =
      current ++ pieces.flatMap (render fill) := by
  induction pieces generalizing current with
  | nil => simp
  | cons piece pieces ih =>
      cases piece with
      | bytes b => simp [ih]
      | hole i => simp [ih]

theorem mem_alternate (current : Bytes) (pieces : List (Piece ι)) (i : ι) :
    .inr i ∈ alternate current pieces ↔ .hole i ∈ pieces := by
  induction pieces generalizing current with
  | nil => simp
  | cons piece pieces ih =>
      cases piece with
      | bytes b => simp [ih]
      | hole j => simp [ih]

end Piece

namespace Document

variable {ι κ : Type} (fill fill' : ι → Bytes)

attribute [local simp] holes render spine marks leaves pieces append map

@[simp] theorem size_nil : size fill nil = 0 := rfl

@[simp] theorem size_raw (bytes : Bytes) (rest : Document ι) :
    size fill (raw bytes rest) = bytes.length + rest.size fill := by
  simp [size]

@[simp] theorem size_sub (tag : Bytes) (body rest : Document ι) :
    size fill (sub tag body rest) =
      tag.length + delimitedSize (body.size fill) + rest.size fill := by
  simp [size, delimited, delimitedSize, Nat.add_assoc]

@[simp] theorem size_hole (tag : Bytes) (i : ι) (rest : Document ι) :
    size fill (hole tag i rest) =
      tag.length + delimitedSize (fill i).length + rest.size fill := by
  simp [size, delimited, delimitedSize, Nat.add_assoc]

@[simp] theorem holes_append (doc more : Document ι) :
    (doc.append more).holes = doc.holes ++ more.holes := by
  induction doc with
  | nil => rfl
  | raw bytes rest ih => exact ih
  | sub tag body rest _ ih => simp [ih]
  | hole tag i rest ih => simp [ih]

@[simp] theorem render_append (doc more : Document ι) :
    (doc.append more).render fill = doc.render fill ++ more.render fill := by
  induction doc with
  | nil => rfl
  | raw bytes rest ih => simp [ih]
  | sub tag body rest _ ih => simp [ih]
  | hole tag i rest ih => simp [ih]

-- Without holes nothing depends on the filling.
theorem render_eq_of_holes_nil (doc : Document ι) (h : doc.holes = []) :
    doc.render fill = doc.render fill' := by
  induction doc with
  | nil => rfl
  | raw bytes rest ih => simp only [render, ih h]
  | sub tag body rest ihBody ihRest =>
      simp only [holes, List.append_eq_nil_iff] at h
      simp only [render, ihBody h.1, ihRest h.2]
  | hole tag i rest ih => simp at h

theorem render_congr (doc : Document ι) (h : ∀ i ∈ doc.holes, fill i = fill' i) :
    doc.render fill = doc.render fill' := by
  induction doc with
  | nil => rfl
  | raw bytes rest ih => simp only [render, ih h]
  | sub tag body rest ihBody ihRest =>
      simp only [holes, List.mem_append] at h
      simp only [render, ihBody (fun i hi => h i (Or.inl hi)), ihRest (fun i hi => h i (Or.inr hi))]
  | hole tag i rest ih =>
      simp only [holes, List.mem_cons] at h
      simp only [render, h i (Or.inl rfl), ih (fun j hj => h j (Or.inr hj))]

-- Only the contents of its own holes count for where a document is open.
theorem pieces_congr (doc : Document ι) (h : ∀ i ∈ doc.holes, fill i = fill' i) :
    doc.pieces fill = doc.pieces fill' := by
  induction doc with
  | nil => rfl
  | raw bytes rest ih => simp only [pieces, ih h]
  | sub tag body rest ihBody ihRest =>
      simp only [holes, List.mem_append] at h
      have hbody := render_congr fill fill' body fun i hi => h i (Or.inl hi)
      simp only [pieces, size, hbody, ihBody (fun i hi => h i (Or.inl hi)),
        ihRest (fun i hi => h i (Or.inr hi))]
  | hole tag i rest ih =>
      simp only [holes, List.mem_cons] at h
      simp only [pieces, h i (Or.inl rfl), ih (fun j hj => h j (Or.inr hj))]

theorem spine_congr (base : Nat) (doc : Document ι) (h : ∀ i ∈ doc.holes, fill i = fill' i) :
    doc.spine fill base = doc.spine fill' base := by
  induction doc generalizing base with
  | nil => rfl
  | raw bytes rest ih => exact ih _ h
  | sub tag body rest ihBody ihRest =>
      simp only [holes, List.mem_append] at h
      have hbody := render_congr fill fill' body fun i hi => h i (Or.inl hi)
      simp only [spine, size, hbody, ihBody _ (fun i hi => h i (Or.inl hi)),
        ihRest _ (fun i hi => h i (Or.inr hi))]
  | hole tag i rest ih =>
      simp only [holes, List.mem_cons] at h
      simp only [spine, h i (Or.inl rfl), ih _ (fun j hj => h j (Or.inr hj))]

-- Filling the open encoding gives the encoding.
theorem pieces_render (doc : Document ι) :
    (doc.pieces fill).flatMap (Piece.render fill) = doc.render fill := by
  induction doc with
  | nil => rfl
  | raw bytes rest ih => simp [Piece.render, ih]
  | sub tag body rest ihBody ihRest =>
      simp [Piece.render, delimited, size, ihBody, ihRest]
  | hole tag i rest ih => simp [Piece.render, delimited, ih]

theorem pieces_holes (doc : Document ι) : (doc.pieces fill).filterMap Piece.hole? = doc.holes := by
  induction doc with
  | nil => rfl
  | raw bytes rest ih => simp [ih]
  | sub tag body rest ihBody ihRest => simp [List.filterMap_append, ihBody, ihRest]
  | hole tag i rest ih => simp [ih]

-- Fields without holes go on the current part.
theorem cut_of_holes_nil (doc : Document ι) (h : doc.holes = []) (current : Bytes) :
    Piece.cut current (doc.pieces fill) = ([], current ++ doc.render fill) := by
  induction doc generalizing current with
  | nil => simp [Piece.cut]
  | raw bytes rest ih => simp [Piece.cut, ih h]
  | sub tag body rest ihBody ihRest =>
      simp only [holes, List.append_eq_nil_iff] at h
      simp [Piece.cut, Piece.cut_append, ihBody h.1, ihRest h.2, delimited, size]
  | hole tag i rest ih => simp at h

section Map

variable (f : ι → κ) (fillMap : κ → Bytes)

theorem holes_map (doc : Document ι) : (doc.map f).holes = doc.holes.map f := by
  induction doc with
  | nil => rfl
  | raw bytes rest ih => exact ih
  | sub tag body rest ihBody ihRest => simp [ihBody, ihRest]
  | hole tag i rest ih => simp [ih]

theorem render_map (doc : Document ι) :
    (doc.map f).render fillMap = doc.render fun i => fillMap (f i) := by
  induction doc with
  | nil => rfl
  | raw bytes rest ih => simp only [map, render, ih]
  | sub tag body rest ihBody ihRest => simp only [map, render, ihBody, ihRest]
  | hole tag i rest ih => simp only [map, render, ih]

theorem pieces_map (doc : Document ι) :
    (doc.map f).pieces fillMap = (doc.pieces fun i => fillMap (f i)).map (Piece.map f) := by
  induction doc with
  | nil => rfl
  | raw bytes rest ih => simp [Piece.map, ih]
  | sub tag body rest ihBody ihRest =>
      simp [Piece.map, ihBody, ihRest, size, render_map]
  | hole tag i rest ih => simp [Piece.map, ih]

theorem spine_map (base : Nat) (doc : Document ι) :
    (doc.map f).spine fillMap base =
      (doc.spine (fun i => fillMap (f i)) base).map fun entry => (f entry.1, entry.2) := by
  induction doc generalizing base with
  | nil => rfl
  | raw bytes rest ih => exact ih _
  | sub tag body rest ihBody ihRest =>
      simp [ihBody, ihRest, size, render_map, Function.comp_def]
  | hole tag i rest ih => simp [ih]

theorem chains_map (base : Nat) (doc : Document ι) :
    (doc.map f).chains fillMap base =
      (doc.chains (fun i => fillMap (f i)) base).map fun entry => (f entry.1, entry.2) := by
  simp only [chains, spine_map, List.map_map]
  rfl

end Map

theorem spine_holes (base : Nat) (doc : Document ι) :
    (doc.spine fill base).map Prod.fst = doc.holes := by
  induction doc generalizing base with
  | nil => rfl
  | raw bytes rest ih => exact ih _
  | sub tag body rest ihBody ihRest =>
      simp only [spine, holes, List.map_append, List.map_map, ihRest]
      rw [← ihBody]
      rfl
  | hole tag i rest ih => simp only [spine, holes, List.map_cons, ih]

theorem chains_holes (base : Nat) (doc : Document ι) :
    (doc.chains fill base).map Prod.fst = doc.holes := by
  rw [← spine_holes fill base doc, chains, List.map_map]
  rfl

theorem chains_sub (base : Nat) (tag : Bytes) (body rest : Document ι) :
    (sub tag body rest).chains fill base =
      (body.chains fill (base + tag.length + (Varint.encode (body.size fill)).length)).map
        (fun entry => (entry.1, (base + tag.length) :: entry.2)) ++
        rest.chains fill (base + tag.length + delimitedSize (body.size fill)) := by
  simp only [chains, spine, List.map_append, List.map_map]
  rfl

theorem chains_hole (base : Nat) (tag : Bytes) (i : ι) (rest : Document ι) :
    (hole tag i rest).chains fill base =
      (i, [base + tag.length]) ::
        rest.chains fill (base + tag.length + delimitedSize (fill i).length) := rfl

theorem chains_raw (base : Nat) (bytes : Bytes) (rest : Document ι) :
    (raw bytes rest).chains fill base = rest.chains fill (base + bytes.length) := rfl

theorem chains_append (base : Nat) (doc more : Document ι) :
    (doc.append more).chains fill base =
      doc.chains fill base ++ more.chains fill (base + doc.size fill) := by
  induction doc generalizing base with
  | nil => simp [chains]
  | raw bytes rest ih =>
      rw [append, chains_raw, chains_raw, ih, size_raw, Nat.add_assoc]
  | sub tag body rest _ ih =>
      simp only [append, chains_sub, ih, size_sub, List.append_assoc, Nat.add_assoc]
  | hole tag i rest ih =>
      simp only [append, chains_hole, ih, size_hole, List.cons_append, Nat.add_assoc]

-- A varint takes at least one byte, so the positions after a length lie beyond it.
theorem lt_add_encode (base tag n : Nat) :
    base + tag < base + tag + (Varint.encode n).length := by
  have := Varint.encode_length_pos n
  omega

theorem spine_bounds (base : Nat) (doc : Document ι) :
    ∀ entry ∈ doc.spine fill base, ∀ p ∈ entry.2, base ≤ p.1 ∧ p.1 < base + doc.size fill := by
  induction doc generalizing base with
  | nil => simp
  | raw bytes rest ih =>
      intro entry he p hp
      have := ih _ entry he p hp
      simp only [size_raw]
      omega
  | sub tag body rest ihBody ihRest =>
      intro entry he p hp
      have hpos := Varint.encode_length_pos (body.size fill)
      simp only [size_sub, delimitedSize]
      simp only [spine, List.mem_append, List.mem_map] at he
      rcases he with ⟨inner, hi, rfl⟩ | he
      · rcases List.mem_cons.mp hp with rfl | hp
        · simp only
          omega
        · have := ihBody _ inner hi p hp
          omega
      · have := ihRest _ entry he p hp
        simp only [delimitedSize] at this
        omega
  | hole tag i rest ih =>
      intro entry he p hp
      have hpos := Varint.encode_length_pos (fill i).length
      simp only [size_hole, delimitedSize]
      rcases List.mem_cons.mp he with rfl | he
      · obtain rfl := List.mem_singleton.mp hp
        simp only
        omega
      · have := ih _ entry he p hp
        simp only [delimitedSize] at this
        omega

-- The positions of one chain run forward through the encoding.
theorem chain_strictly_ascending (base : Nat) (doc : Document ι) :
    ∀ entry ∈ doc.spine fill base, entry.2.Pairwise (fun p q => p.1 < q.1) := by
  induction doc generalizing base with
  | nil => simp
  | raw bytes rest ih => exact fun entry he => ih _ entry he
  | sub tag body rest ihBody ihRest =>
      intro entry he
      simp only [spine, List.mem_append, List.mem_map] at he
      rcases he with ⟨inner, hi, rfl⟩ | he
      · refine List.pairwise_cons.mpr ⟨?_, ihBody _ inner hi⟩
        intro p hp
        have hb := (spine_bounds fill _ body inner hi p hp).1
        exact (lt_add_encode _ _ _).trans_le hb
      · exact ihRest _ entry he
  | hole tag i rest ih =>
      intro entry he
      rcases List.mem_cons.mp he with rfl | he
      · simp
      · exact ih _ entry he

theorem spine_ne_nil (base : Nat) (doc : Document ι) :
    ∀ entry ∈ doc.spine fill base, entry.2 ≠ [] := by
  induction doc generalizing base with
  | nil => simp
  | raw bytes rest ih => exact fun entry he => ih _ entry he
  | sub tag body rest _ ihRest =>
      intro entry he
      simp only [spine, List.mem_append, List.mem_map] at he
      rcases he with ⟨inner, _, rfl⟩ | he
      · simp
      · exact ihRest _ entry he
  | hole tag i rest ih =>
      intro entry he
      rcases List.mem_cons.mp he with rfl | he
      · simp
      · exact ih _ entry he

theorem marks_bounds (base : Nat) (doc : Document ι) :
    ∀ mark ∈ doc.marks fill fill' base,
      base ≤ mark.position ∧ mark.position < base + doc.size fill := by
  induction doc generalizing base with
  | nil => simp
  | raw bytes rest ih =>
      intro mark hm
      have := ih _ mark hm
      simp only [size_raw]
      omega
  | sub tag body rest ihBody ihRest =>
      intro mark hm
      have hpos := Varint.encode_length_pos (body.size fill)
      simp only [size_sub, delimitedSize]
      simp only [marks] at hm
      split at hm
      · have := ihRest _ mark hm
        simp only [delimitedSize] at this
        omega
      · rcases List.mem_cons.mp hm with rfl | hm
        · simp only
          omega
        rcases List.mem_append.mp hm with hm | hm
        · have := ihBody _ mark hm
          omega
        · have := ihRest _ mark hm
          simp only [delimitedSize] at this
          omega
  | hole tag i rest ih =>
      intro mark hm
      have hpos := Varint.encode_length_pos (fill i).length
      simp only [size_hole, delimitedSize]
      rcases List.mem_cons.mp hm with rfl | hm
      · simp only
        omega
      · have := ih _ mark hm
        simp only [delimitedSize] at this
        omega

theorem marks_strictly_ascending (base : Nat) (doc : Document ι) :
    (doc.marks fill fill' base).Pairwise (fun m n => m.position < n.position) := by
  induction doc generalizing base with
  | nil => simp
  | raw bytes rest ih => exact ih _
  | sub tag body rest ihBody ihRest =>
      simp only [marks]
      split
      · exact ihRest _
      · have hpos := Varint.encode_length_pos (body.size fill)
        refine List.pairwise_cons.mpr ⟨?_, List.pairwise_append.mpr ⟨ihBody _, ihRest _, ?_⟩⟩
        · intro mark hm
          rcases List.mem_append.mp hm with hm | hm
          · have := (marks_bounds fill fill' _ body mark hm).1
            simp only
            omega
          · have := (marks_bounds fill fill' _ rest mark hm).1
            simp only [delimitedSize] at this ⊢
            omega
        · intro mark hm next hn
          have hm := (marks_bounds fill fill' _ body mark hm).2
          have hn := (marks_bounds fill fill' _ rest next hn).1
          simp only [delimitedSize] at hn
          omega
  | hole tag i rest ih =>
      have hpos := Varint.encode_length_pos (fill i).length
      refine List.pairwise_cons.mpr ⟨?_, ih _⟩
      intro mark hm
      have := (marks_bounds fill fill' _ rest mark hm).1
      simp only [delimitedSize] at this ⊢
      omega

theorem marks_eq_nil_iff (base : Nat) (doc : Document ι) :
    doc.marks fill fill' base = [] ↔ doc.holes = [] := by
  induction doc generalizing base with
  | nil => simp
  | raw bytes rest ih => exact ih _
  | sub tag body rest _ ihRest =>
      by_cases h : body.holes = []
      · simp only [marks, h, ite_true, holes, List.nil_append, ihRest]
      · simp [h]
  | hole tag i rest _ => simp

-- The lengths can be told from the runs between the holes.
theorem cut_pieces_holes (doc : Document ι) (current : Bytes) (more more' : List (Piece ι))
    (h : Piece.cut current (doc.pieces fill ++ more) =
      Piece.cut current (doc.pieces fill' ++ more')) :
    (∀ i ∈ doc.holes, (fill i).length = (fill' i).length) ∧
      ∃ next, Piece.cut next more = Piece.cut next more' := by
  induction doc generalizing current more more' with
  | nil => exact ⟨fun _ hi => absurd hi List.not_mem_nil, current, h⟩
  | raw bytes rest ih => exact ih _ _ _ h
  | sub tag body rest ihBody ihRest =>
      simp only [pieces, List.cons_append, Piece.cut] at h
      rw [List.append_assoc (body.pieces fill), List.append_assoc (body.pieces fill')] at h
      have hsize := Piece.encode_eq_of_cut h
      rw [hsize] at h
      obtain ⟨hbody, next, h⟩ := ihBody _ _ _ h
      obtain ⟨hrest, hnext⟩ := ihRest _ _ _ h
      exact ⟨fun i hi => (List.mem_append.mp hi).elim (hbody i) (hrest i), hnext⟩
  | hole tag i rest ih =>
      have hsize := @Piece.encode_eq_of_cut ι (.hole i :: (rest.pieces fill ++ more))
        (.hole i :: (rest.pieces fill' ++ more')) (current ++ tag) _ _ h
      simp only [pieces, List.cons_append, Piece.cut, Prod.mk.injEq, List.cons.injEq] at h
      obtain ⟨hrest, hnext⟩ := ih [] more more' (Prod.ext h.1.2 h.2)
      exact ⟨List.forall_mem_cons.mpr ⟨hsize, hrest⟩, hnext⟩

-- Where the varints lie is decided by what the holes hold at first.
theorem marks_positions (fill'' : ι → Bytes) (base : Nat) (doc : Document ι) :
    (doc.marks fill fill' base).map Mark.position =
      (doc.marks fill fill'' base).map Mark.position := by
  induction doc generalizing base with
  | nil => rfl
  | raw bytes rest ih => exact ih _
  | sub tag body rest ihBody ihRest =>
      by_cases h : body.holes = []
      · simp only [marks, if_pos h, ihRest]
      · simp only [marks, if_neg h, List.cons_append, List.map_cons, List.map_append, ihBody, ihRest]
  | hole tag i rest ih => simp only [marks, List.map_cons, ih]

theorem mem_pieces (doc : Document ι) (i : ι) : .hole i ∈ doc.pieces fill ↔ i ∈ doc.holes := by
  induction doc with
  | nil => simp
  | raw bytes rest ih => simp [ih]
  | sub tag body rest ihBody ihRest => simp [ihBody, ihRest]
  | hole tag j rest ih => simp [ih]

theorem chains_leaves (base : Nat) (doc : Document ι) :
    (doc.chains fill base).map (fun entry => (entry.1, entry.2.getLast?)) =
      (doc.leaves fill base).map fun leaf => (leaf.1, some leaf.2) := by
  induction doc generalizing base with
  | nil => rfl
  | raw bytes rest ih => exact ih _
  | sub tag body rest ihBody ihRest =>
      rw [chains_sub, leaves, List.map_append, List.map_append, ihRest, List.map_map, ← ihBody]
      congr 1
      refine List.map_congr_left ?_
      intro entry he
      obtain ⟨inner, hi, rfl⟩ := List.mem_map.mp he
      have hne := spine_ne_nil fill _ body inner hi
      simp only [Function.comp_apply, Prod.mk.injEq, true_and]
      cases hc : inner.2 with
      | nil => exact absurd hc hne
      | cons p more => simp [List.getLast?_cons_cons]
  | hole tag i rest ih =>
      rw [chains_hole, leaves, List.map_cons, List.map_cons, ih]
      rfl

-- Each length varint is a run of bytes of its own in the open encoding, with holes behind it.
theorem marks_located (base : Nat) (doc : Document ι) :
    ∀ mark ∈ doc.marks fill fill' base, ∃ pre post,
      doc.pieces fill = pre ++ .bytes (Varint.encode mark.old) :: post ∧
        base + (pre.flatMap (Piece.render fill)).length = mark.position ∧
          post.filterMap Piece.hole? ≠ [] := by
  induction doc generalizing base with
  | nil => simp
  | raw bytes rest ih =>
      intro mark hm
      obtain ⟨pre, post, hp, hlen, hbehind⟩ := ih _ mark hm
      refine ⟨.bytes bytes :: pre, post, by simp [hp], ?_, hbehind⟩
      simp only [List.flatMap_cons, Piece.render, List.length_append]
      omega
  | sub tag body rest ihBody ihRest =>
      intro mark hm
      have hsize : ((body.pieces fill).flatMap (Piece.render fill)).length = body.size fill := by
        rw [pieces_render, size]
      have hinRest : mark ∈ rest.marks fill fill'
          (base + tag.length + delimitedSize (body.size fill)) → ∃ pre post,
          (sub tag body rest).pieces fill = pre ++ .bytes (Varint.encode mark.old) :: post ∧
            base + (pre.flatMap (Piece.render fill)).length = mark.position ∧
              post.filterMap Piece.hole? ≠ [] := by
        intro hm
        obtain ⟨pre, post, hp, hlen, hbehind⟩ := ihRest _ mark hm
        refine ⟨.bytes tag :: .bytes (Varint.encode (body.size fill)) ::
          (body.pieces fill ++ pre), post, by simp [hp], ?_, hbehind⟩
        simp only [List.flatMap_cons, List.flatMap_append, Piece.render, List.length_append, hsize,
          delimitedSize] at hlen ⊢
        omega
      simp only [marks] at hm
      split at hm
      · exact hinRest hm
      · rename_i hb
        rcases List.mem_cons.mp hm with rfl | hm
        · exact ⟨[.bytes tag], body.pieces fill ++ rest.pieces fill, by simp,
            by simp [Piece.render], by simp [List.filterMap_append, pieces_holes, hb]⟩
        rcases List.mem_append.mp hm with hm | hm
        · obtain ⟨pre, post, hp, hlen, hbehind⟩ := ihBody _ mark hm
          refine ⟨.bytes tag :: .bytes (Varint.encode (body.size fill)) :: pre,
            post ++ rest.pieces fill, by simp [hp], ?_, by
              rw [List.filterMap_append]
              exact List.append_ne_nil_of_left_ne_nil hbehind _⟩
          simp only [List.flatMap_cons, Piece.render, List.length_append]
          omega
        · exact hinRest hm
  | hole tag i rest ih =>
      intro mark hm
      rcases List.mem_cons.mp hm with rfl | hm
      · exact ⟨[.bytes tag], .hole i :: rest.pieces fill, by simp, by simp [Piece.render],
          List.cons_ne_nil _ _⟩
      · obtain ⟨pre, post, hp, hlen, hbehind⟩ := ih _ mark hm
        refine ⟨.bytes tag :: .bytes (Varint.encode (fill i).length) :: .hole i :: pre, post,
          by simp [hp], ?_, hbehind⟩
        simp only [List.flatMap_cons, Piece.render, List.length_append, delimitedSize] at hlen ⊢
        omega

theorem marks_pieces (base : Nat) (doc : Document ι) :
    ∀ mark ∈ doc.marks fill fill' base, ∃ pre post,
      doc.pieces fill = pre ++ .bytes (Varint.encode mark.old) :: post ∧
        base + (pre.flatMap (Piece.render fill)).length = mark.position := by
  intro mark hm
  obtain ⟨pre, post, hpieces, hposition, -⟩ := marks_located fill fill' base doc mark hm
  exact ⟨pre, post, hpieces, hposition⟩

-- The last length on the way is that of a hole.
theorem marks_getLast (base : Nat) (doc : Document ι) :
    ∀ mark ∈ (doc.marks fill fill' base).getLast?, mark.leaf = true := by
  induction doc generalizing base with
  | nil => simp
  | raw bytes rest ih => exact ih _
  | sub tag body rest ihBody ihRest =>
      simp only [marks]
      split
      · exact ihRest _
      · rename_i hb
        intro mark hm
        rw [List.cons_append, List.getLast?_cons, Option.mem_some_iff] at hm
        cases hr : (rest.marks fill fill'
            (base + tag.length + delimitedSize (body.size fill))).getLast? with
        | some last =>
            rw [List.getLast?_append, hr, Option.some_or, Option.getD_some] at hm
            exact hm ▸ ihRest _ last hr
        | none =>
            rw [List.getLast?_append, hr, Option.none_or] at hm
            cases hbody : (body.marks fill fill'
                (base + tag.length + (Varint.encode (body.size fill)).length)).getLast? with
            | some last =>
                rw [hbody, Option.getD_some] at hm
                exact hm ▸ ihBody _ last hbody
            | none =>
                rw [List.getLast?_eq_none_iff, marks_eq_nil_iff] at hbody
                exact absurd hbody hb
  | hole tag i rest ih =>
      intro mark hm
      rw [marks, List.getLast?_cons, Option.mem_some_iff] at hm
      cases hr : (rest.marks fill fill'
          (base + tag.length + delimitedSize (fill i).length)).getLast? with
      | some last =>
          rw [hr, Option.getD_some] at hm
          exact hm ▸ ih _ last hr
      | none =>
          rw [hr, Option.getD_none] at hm
          rw [← hm]

-- Every length of a chain is a mark.
theorem spine_marks (base : Nat) (doc : Document ι) :
    ∀ entry ∈ doc.spine fill base, ∀ p ∈ entry.2, ∃ mark ∈ doc.marks fill fill' base,
      mark.position = p.1 ∧ mark.old = p.2 := by
  induction doc generalizing base with
  | nil => simp
  | raw bytes rest ih => exact ih _
  | sub tag body rest ihBody ihRest =>
      intro entry he p hp
      simp only [spine, List.mem_append, List.mem_map] at he
      rcases he with ⟨inner, hi, rfl⟩ | he
      · have hb : body.holes ≠ [] := by
          intro hb
          have hmem : inner.1 ∈ body.holes := by
            rw [← spine_holes fill _ body]
            exact List.mem_map_of_mem hi
          simp [hb] at hmem
        simp only [marks, if_neg hb]
        rcases List.mem_cons.mp hp with rfl | hp
        · exact ⟨_, List.mem_cons_self .., rfl, rfl⟩
        · obtain ⟨mark, hm, heq⟩ := ihBody _ inner hi p hp
          exact ⟨mark, List.mem_cons_of_mem _ (List.mem_append_left _ hm), heq⟩
      · obtain ⟨mark, hm, heq⟩ := ihRest _ entry he p hp
        refine ⟨mark, ?_, heq⟩
        simp only [marks]
        split
        · exact hm
        · exact List.mem_cons_of_mem _ (List.mem_append_right _ hm)
  | hole tag i rest ih =>
      intro entry he p hp
      rcases List.mem_cons.mp he with rfl | he
      · obtain rfl := List.mem_singleton.mp hp
        exact ⟨_, List.mem_cons_self .., rfl, rfl⟩
      · obtain ⟨mark, hm, heq⟩ := ih _ entry he p hp
        exact ⟨mark, List.mem_cons_of_mem _ hm, heq⟩

-- The encoding holds at each mark the length it stands for.
theorem marks_decode (doc : Document ι) (mark : Mark) (hm : mark ∈ doc.marks fill fill' 0) :
    Varint.decode? ((doc.render fill).drop mark.position) = some mark.old := by
  obtain ⟨pre, post, hpieces, hpos⟩ := marks_pieces fill fill' 0 doc mark hm
  rw [Nat.zero_add] at hpos
  rw [← pieces_render, hpieces, List.flatMap_append, ← hpos, List.drop_left, List.flatMap_cons]
  exact Varint.decode?_encode mark.old _

-- A hole's own varint is a mark, with the lengths of its fillings.
theorem leaves_sublist_marks (base : Nat) (doc : Document ι) :
    ((doc.leaves fill base).map fun leaf =>
        (⟨leaf.2, (fill leaf.1).length, (fill' leaf.1).length, true⟩ : Mark)).Sublist
      (doc.marks fill fill' base) := by
  induction doc generalizing base with
  | nil => exact List.Sublist.refl _
  | raw bytes rest ih => exact ih _
  | sub tag body rest ihBody ihRest =>
      simp only [leaves, marks, List.map_append]
      split
      · rename_i hb
        have hbody := ihBody (base + tag.length + (Varint.encode (body.size fill)).length)
        rw [(marks_eq_nil_iff fill fill' _ body).mpr hb, List.sublist_nil] at hbody
        rw [hbody]
        exact ihRest _
      · exact ((ihBody _).append (ihRest _)).cons _
  | hole tag i rest ih => exact (ih _).cons_cons _

theorem leaves_nodup (base : Nat) (doc : Document ι) :
    ((doc.leaves fill base).map Prod.snd).Nodup := by
  have hm : ((doc.marks fill fill base).map Mark.position).Nodup := by
    rw [List.nodup_iff_pairwise_ne, List.pairwise_map]
    exact (marks_strictly_ascending fill fill base doc).imp fun h => Nat.ne_of_lt h
  have hs := (leaves_sublist_marks fill fill base doc).map Mark.position
  rw [List.map_map] at hs
  exact hm.sublist hs

end Document

end Wire
