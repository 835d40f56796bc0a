import BeeRpc.Wire.Document

namespace Wire

namespace Piece

variable {ι : Type}

-- Behind a hole the runs begin anew.
theorem alternate_hole (current : Bytes) (front : List (Piece ι)) (i : ι) :
    ∃ left, left.length = 2 * (front.filterMap hole?).length + 2 ∧
      ∀ more, alternate current (front ++ .hole i :: more) = left ++ alternate [] more := by
  induction front generalizing current with
  | nil => exact ⟨[.inl current, .inr i], rfl, fun more => rfl⟩
  | cons piece front ih =>
      cases piece with
      | bytes b => exact ih (current ++ b)
      | hole j =>
          obtain ⟨left, hlength, hleft⟩ := ih []
          refine ⟨.inl current :: .inr j :: left, ?_, fun more => ?_⟩
          · simp only [List.length_cons, hlength, filterMap_hole?_hole]
            omega
          · simp only [List.cons_append, alternate, hleft]

end Piece

namespace Document

variable {ι : Type} (fill fill' : ι → Bytes)

-- The same encoding with its first holes only: the others are spelled out.
def keep : Nat → Document ι → Document ι
  | _, nil => nil
  | n, raw bytes rest => raw bytes (rest.keep n)
  | n, sub tag body rest => sub tag (body.keep n) (rest.keep (n - body.holes.length))
  | 0, hole tag i rest => raw (tag ++ delimited (fill i)) (rest.keep 0)
  | n + 1, hole tag i rest => hole tag i (rest.keep n)

theorem render_keep (n : Nat) (doc : Document ι) :
    (doc.keep fill n).render fill = doc.render fill := by
  induction doc generalizing n with
  | nil => cases n <;> rfl
  | raw bytes rest ih =>
      cases n with
      | zero => rw [keep, render, render, ih]
      | succ n => rw [keep, render, render, ih]
  | sub tag body rest ihBody ihRest =>
      cases n with
      | zero => rw [keep, render, render, ihBody, ihRest]
      | succ n => rw [keep, render, render, ihBody, ihRest]
  | hole tag i rest ih =>
      cases n with
      | zero => rw [keep, render, render, ih]
      | succ n => rw [keep, render, render, ih]

theorem size_keep (n : Nat) (doc : Document ι) : (doc.keep fill n).size fill = doc.size fill := by
  rw [size, render_keep, size]

theorem holes_keep (n : Nat) (doc : Document ι) : (doc.keep fill n).holes = doc.holes.take n := by
  induction doc generalizing n with
  | nil => simp [keep, holes]
  | raw bytes rest ih => simp [keep, holes, ih]
  | sub tag body rest ihBody ihRest => simp [keep, holes, ihBody, ihRest, List.take_append]
  | hole tag i rest ih =>
      cases n with
      | zero => simp [keep, holes, ih]
      | succ n => simp [keep, holes, ih]

theorem spine_length (base : Nat) (doc : Document ι) :
    (doc.spine fill base).length = doc.holes.length := by
  rw [← spine_holes fill base doc, List.length_map]

theorem spine_keep (base n : Nat) (doc : Document ι) :
    (doc.keep fill n).spine fill base = (doc.spine fill base).take n := by
  induction doc generalizing base n with
  | nil => simp [keep, spine]
  | raw bytes rest ih => simp [keep, spine, ih]
  | sub tag body rest ihBody ihRest =>
      simp only [keep, spine, size_keep, ihBody, ihRest, List.map_take, List.take_append,
        List.length_map, spine_length]
  | hole tag i rest ih =>
      cases n with
      | zero => simp [keep, spine, ih]
      | succ n => simp [keep, spine, ih]

theorem chains_keep (base n : Nat) (doc : Document ι) :
    (doc.keep fill n).chains fill base = (doc.chains fill base).take n := by
  rw [chains, spine_keep, List.map_take, chains]

theorem keep_eq_self {n : Nat} (doc : Document ι) (h : doc.holes.length ≤ n) : doc.keep fill n = doc := by
  induction doc generalizing n with
  | nil => rw [keep]
  | raw bytes rest ih => rw [keep, ih h]
  | sub tag body rest ihBody ihRest =>
      rw [holes, List.length_append] at h
      rw [keep, ihBody (by omega), ihRest (by omega)]
  | hole tag i rest ih =>
      cases n with
      | zero => simp [holes] at h
      | succ n =>
          rw [holes, List.length_cons] at h
          rw [keep, ih (by omega)]

-- Up to the last of these holes the two are the same piece by piece.
theorem pieces_keep (n : Nat) (doc : Document ι) (hn : n < doc.holes.length) :
    ∃ front i tail back, doc.pieces fill = front ++ .hole i :: tail ∧
      (doc.keep fill (n + 1)).pieces fill = front ++ .hole i :: back ∧
        back.filterMap Piece.hole? = [] ∧ (front.filterMap Piece.hole?).length = n := by
  induction doc generalizing n with
  | nil => exact absurd hn (Nat.not_lt_zero n)
  | raw bytes rest ih =>
      obtain ⟨front, i, tail, back, hpieces, hkeep, hback, hlength⟩ := ih n hn
      refine ⟨.bytes bytes :: front, i, tail, back, ?_, ?_, hback, hlength⟩
      · rw [pieces, hpieces, List.cons_append]
      · rw [keep, pieces, hkeep, List.cons_append]
  | sub tag body rest ihBody ihRest =>
      rw [holes, List.length_append] at hn
      by_cases hinside : n < body.holes.length
      · obtain ⟨front, i, tail, back, hpieces, hkeep, hback, hlength⟩ := ihBody n hinside
        have hspelled : (rest.keep fill (n + 1 - body.holes.length)).holes = [] := by
          rw [holes_keep, Nat.sub_eq_zero_of_le hinside, List.take_zero]
        refine ⟨.bytes tag :: .bytes (Varint.encode (body.size fill)) :: front, i,
          tail ++ rest.pieces fill,
          back ++ (rest.keep fill (n + 1 - body.holes.length)).pieces fill, ?_, ?_, ?_, hlength⟩
        · simp only [pieces, hpieces, List.cons_append, List.append_assoc]
        · simp only [keep, pieces, hkeep, size_keep, List.cons_append, List.append_assoc]
        · rw [List.filterMap_append, hback, pieces_holes, hspelled]
          rfl
      · obtain ⟨front, i, tail, back, hpieces, hkeep, hback, hlength⟩ :=
          ihRest (n - body.holes.length) (by omega)
        have hbody := keep_eq_self fill body (show body.holes.length ≤ n + 1 by omega)
        have hrest : n + 1 - body.holes.length = n - body.holes.length + 1 := by omega
        refine ⟨.bytes tag :: .bytes (Varint.encode (body.size fill)) ::
          (body.pieces fill ++ front), i, tail, back, ?_, ?_, hback, ?_⟩
        · simp only [pieces, hpieces, List.cons_append, List.append_assoc]
        · simp only [keep, pieces, hbody, hrest, hkeep, List.cons_append, List.append_assoc]
        · simp only [Piece.filterMap_hole?_bytes, List.filterMap_append, List.length_append,
            pieces_holes, hlength]
          omega
  | hole tag i rest ih =>
      cases n with
      | zero =>
          refine ⟨[.bytes tag, .bytes (Varint.encode (fill i).length)], i, rest.pieces fill,
            (rest.keep fill 0).pieces fill, rfl, rfl, ?_, rfl⟩
          rw [pieces_holes, holes_keep, List.take_zero]
      | succ n =>
          rw [holes, List.length_cons] at hn
          obtain ⟨front, j, tail, back, hpieces, hkeep, hback, hlength⟩ := ih n (by omega)
          refine ⟨.bytes tag :: .bytes (Varint.encode (fill i).length) :: .hole i :: front, j, tail,
            back, ?_, ?_, hback, congrArg Nat.succ hlength⟩
          · simp only [pieces, hpieces, List.cons_append]
          · simp only [keep, pieces, hkeep, List.cons_append]

end Document

end Wire
