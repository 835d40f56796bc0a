import BeeRpc.Wire.Document

namespace Wire

-- The pieces of an encoding in which some lengths are to be rewritten: each of these as it is
-- spelled, with what it states and what it is to state.
inductive Slot (ι : Type) where
  | piece (piece : Piece ι)
  | length (raw : Bytes) (old new : Nat)
  deriving Repr, DecidableEq

namespace Slot

variable {ι : Type}

def before : Slot ι → Piece ι
  | piece p => p
  | length raw _ _ => .bytes raw

def after : Slot ι → Piece ι
  | piece p => p
  | length _ _ new => .bytes (Varint.encode new)

-- Where these lengths begin, and what they are to state.
def marks (fill : ι → Bytes) (base : Nat) : List (Slot ι) → List (Nat × Nat)
  | [] => []
  | piece p :: rest => marks fill (base + (p.render fill).length) rest
  | length raw _ new :: rest => (base, new) :: marks fill (base + raw.length) rest

-- They are varints that state what is said of them.
def Stated (slots : List (Slot ι)) : Prop :=
  ∀ raw old new, length raw old new ∈ slots → Varint.States raw old

variable (fill fill' : ι → Bytes)

theorem marks_append (base : Nat) (slots more : List (Slot ι)) :
    marks fill base (slots ++ more) = marks fill base slots ++
      marks fill (base + ((slots.map before).flatMap (Piece.render fill)).length) more := by
  induction slots generalizing base with
  | nil => rfl
  | cons slot slots ih =>
      cases slot with
      | piece p =>
          simp only [List.cons_append, marks, ih, List.map_cons, List.flatMap_cons, before,
            List.length_append, Nat.add_assoc]
      | length raw old new =>
          simp only [List.cons_append, marks, ih, List.map_cons, List.flatMap_cons, before,
            Piece.render, List.length_append, Nat.add_assoc]

theorem le_of_mem_marks {base : Nat} {slots : List (Slot ι)} :
    ∀ mark ∈ marks fill base slots, base ≤ mark.1 := by
  induction slots generalizing base with
  | nil => intro mark hmark; cases hmark
  | cons slot slots ih =>
      intro mark hmark
      cases slot with
      | piece p =>
          have hle := ih mark hmark
          omega
      | length raw old new =>
          rcases List.mem_cons.mp hmark with rfl | hmark
          · exact Nat.le_refl _
          · have hle := ih mark hmark
            omega

theorem marks_strictly_ascending (base : Nat) {slots : List (Slot ι)} (h : Stated slots) :
    (marks fill base slots).Pairwise fun mark other => mark.1 < other.1 := by
  induction slots generalizing base with
  | nil => exact List.Pairwise.nil
  | cons slot slots ih =>
      have hrest : Stated slots := fun raw old new hmem => h raw old new (List.mem_cons_of_mem _ hmem)
      cases slot with
      | piece p => exact ih _ hrest
      | length raw old new =>
          refine List.pairwise_cons.mpr ⟨fun mark hmark => ?_, ih _ hrest⟩
          have hpos := (h raw old new (List.mem_cons_self ..)).length_pos
          have hle := le_of_mem_marks fill mark hmark
          omega

end Slot

namespace Document

variable {ι : Type} (fill fill' : ι → Bytes)

-- The lengths on the chains of a document, under the first filling and under the second.
def slots : Document ι → List (Slot ι)
  | nil => []
  | raw bytes rest => .piece (.bytes bytes) :: rest.slots
  | sub tag body rest =>
      let length := Varint.encode (body.size fill)
      .piece (.bytes tag) ::
        (if body.holes = [] then .piece (.bytes length)
          else .length length (body.size fill) (body.size fill')) ::
        (body.slots ++ rest.slots)
  | hole tag i rest =>
      .piece (.bytes tag) ::
        .length (Varint.encode (fill i).length) (fill i).length (fill' i).length ::
        .piece (.hole i) :: rest.slots

theorem slots_before (doc : Document ι) :
    (doc.slots fill fill').map Slot.before = doc.pieces fill := by
  induction doc with
  | nil => rfl
  | raw bytes rest ih => simp only [slots, pieces, List.map_cons, Slot.before, ih]
  | sub tag body rest ihBody ihRest =>
      by_cases hnil : body.holes = []
      · simp only [slots, pieces, if_pos hnil, List.map_cons, List.map_append, Slot.before, ihBody,
          ihRest, List.cons_append]
      · simp only [slots, pieces, if_neg hnil, List.map_cons, List.map_append, Slot.before, ihBody,
          ihRest, List.cons_append]
  | hole tag i rest ih => simp only [slots, pieces, List.map_cons, Slot.before, ih]

theorem slots_after (doc : Document ι) :
    (doc.slots fill fill').map Slot.after = doc.pieces fill' := by
  induction doc with
  | nil => rfl
  | raw bytes rest ih => simp only [slots, pieces, List.map_cons, Slot.after, ih]
  | sub tag body rest ihBody ihRest =>
      by_cases hnil : body.holes = []
      · simp only [slots, pieces, if_pos hnil, List.map_cons, List.map_append, Slot.after, ihBody,
          ihRest, List.cons_append, size, render_eq_of_holes_nil fill fill' body hnil]
      · simp only [slots, pieces, if_neg hnil, List.map_cons, List.map_append, Slot.after, ihBody,
          ihRest, List.cons_append]
  | hole tag i rest ih => simp only [slots, pieces, List.map_cons, Slot.after, ih]

theorem slots_stated (doc : Document ι) : Slot.Stated (doc.slots fill fill') := by
  induction doc with
  | nil => intro raw old new hmem; cases hmem
  | raw bytes rest ih =>
      intro raw old new hmem
      simp only [slots, List.mem_cons, reduceCtorEq, false_or] at hmem
      exact ih raw old new hmem
  | sub tag body rest ihBody ihRest =>
      intro raw old new hmem
      simp only [slots, List.mem_cons, reduceCtorEq, false_or, List.mem_append] at hmem
      rcases hmem with hmem | hmem | hmem
      · split at hmem
        · cases hmem
        · obtain ⟨rfl, rfl, -⟩ := Slot.length.inj hmem
          exact Varint.states_encode _
      · exact ihBody raw old new hmem
      · exact ihRest raw old new hmem
  | hole tag i rest ih =>
      intro raw old new hmem
      simp only [slots, List.mem_cons, reduceCtorEq, false_or] at hmem
      rcases hmem with hmem | hmem
      · obtain ⟨rfl, rfl, -⟩ := Slot.length.inj hmem
        exact Varint.states_encode _
      · exact ih raw old new hmem

theorem slots_marks (base : Nat) (doc : Document ι) :
    Slot.marks fill base (doc.slots fill fill') =
      (doc.marks fill fill' base).map fun mark => (mark.position, mark.new) := by
  induction doc generalizing base with
  | nil => rfl
  | raw bytes rest ih => exact ih _
  | sub tag body rest ihBody ihRest =>
      have hsize : (((body.slots fill fill').map Slot.before).flatMap
          (Piece.render fill)).length = body.size fill := by
        rw [slots_before, pieces_render, size]
      by_cases hnil : body.holes = []
      · have hbody := fun base => (marks_eq_nil_iff fill fill' base body).mpr hnil
        simp only [slots, marks, if_pos hnil, Slot.marks, Piece.render, Slot.marks_append, ihBody,
          ihRest, hsize, hbody, List.map_nil, List.nil_append, delimitedSize, Nat.add_assoc]
      · simp only [slots, marks, if_neg hnil, Slot.marks, Piece.render, Slot.marks_append, ihBody,
          ihRest, hsize, List.map_cons, List.map_append, List.cons_append, delimitedSize,
          Nat.add_assoc]
  | hole tag i rest ih =>
      simp only [slots, marks, Slot.marks, Piece.render, ih, List.map_cons, delimitedSize,
        Nat.add_assoc]

end Document

end Wire
