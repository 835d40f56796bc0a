import BeeRpc.Driver
import BeeRpc.Positions

namespace BeeRpc

open Wire Naming

section

variable (registry : Registry)

-- The varint at a position of the expanded stream begins in one of the parts, and ends there.
def InPart (buffer : List (Bytes ⊕ BlockId)) (position : Nat) : Prop :=
  ∃ left value right offset, buffer = left ++ .inl value :: right ∧
    position = (expandedFileList registry (left.map Path.ofRun)).length + offset ∧
      (Varint.span? (value.drop offset)).isSome

variable {registry}

theorem inPart_nil (position : Nat) : ¬ InPart registry [] position := by
  rintro ⟨left, value, right, offset, h, -⟩
  exact List.append_ne_nil_of_right_ne_nil left (List.cons_ne_nil _ _) h.symm

theorem inPart_cons (run : Bytes ⊕ BlockId) (rest : List (Bytes ⊕ BlockId)) (position : Nat) :
    InPart registry (run :: rest) position ↔
      (∃ value, run = .inl value ∧ (Varint.span? (value.drop position)).isSome) ∨
        ∃ more, position = ((Path.ofRun run).bytes registry).length + more ∧
          InPart registry rest more := by
  constructor
  · rintro ⟨left, value, right, offset, h, rfl, hspan⟩
    cases left with
    | nil =>
        obtain ⟨rfl, rfl⟩ := List.cons.inj h
        refine Or.inl ⟨value, rfl, ?_⟩
        rwa [List.map_nil, expandedFileList, List.flatMap_nil, List.length_nil, Nat.zero_add]
    | cons first left =>
        obtain ⟨rfl, rfl⟩ := List.cons.inj h
        refine Or.inr ⟨_, ?_, left, value, right, offset, rfl, rfl, hspan⟩
        rw [List.map_cons, expandedFileList_cons, List.length_append, Nat.add_assoc]
  · rintro (⟨value, rfl, hspan⟩ | ⟨_, rfl, left, value, right, offset, rfl, rfl, hspan⟩)
    · refine ⟨[], value, rest, position, rfl, ?_, hspan⟩
      rw [List.map_nil, expandedFileList, List.flatMap_nil, List.length_nil, Nat.zero_add]
    · refine ⟨run :: left, value, right, offset, rfl, ?_, hspan⟩
      rw [List.map_cons, expandedFileList_cons, List.length_append, Nat.add_assoc]

-- A varint is rewritten exactly where it lies in a part.
theorem setVarintLoop_eq_ok {position newValue : Nat} (buffer : List (Bytes ⊕ BlockId))
    (offset : Nat) (hwhole : ∀ id, .inr id ∈ buffer → ∃ content, registry.expansion id = some content) :
    (∃ changed, setVarintLoop registry position newValue offset buffer = .ok changed) ↔
      ∃ more, position = offset + more ∧ InPart registry buffer more := by
  induction buffer generalizing offset with
  | nil => exact iff_of_false (fun ⟨_, h⟩ => by cases h) fun ⟨more, _, h⟩ => inPart_nil more h
  | cons run rest ih =>
      have hrest := fun offset => ih offset fun id hid => hwhole id (List.mem_cons_of_mem _ hid)
      simp only [inPart_cons]
      cases run with
      | inl value =>
          rw [setVarintLoop]
          split
          · rename_i hinside
            obtain ⟨more, rfl⟩ := Nat.exists_eq_add_of_le hinside.1
            rw [Nat.add_sub_cancel_left, setVarintIn]
            constructor
            · rintro ⟨changed, h⟩
              refine ⟨more, rfl, Or.inl ⟨value, rfl, ?_⟩⟩
              split at h
              · cases h
              · rename_i hspan
                rw [hspan]
                rfl
            · rintro ⟨other, hother, hin⟩
              obtain rfl : more = other := by omega
              rcases hin with ⟨_, heq, hspan⟩ | ⟨beyond, hbeyond, -⟩
              · obtain rfl := Sum.inl.inj heq
                obtain ⟨span, hspan⟩ := Option.isSome_iff_exists.mp hspan
                rw [hspan]
                exact ⟨_, rfl⟩
              · have hlength : ((Path.ofRun (.inl value)).bytes registry).length = value.length := rfl
                omega
          · rename_i hbeyond
            constructor
            · rintro ⟨changed, h⟩
              obtain ⟨_, hlater, -⟩ := bind_eq_ok.mp h
              obtain ⟨more, rfl, hin⟩ := (hrest _).mp ⟨_, hlater⟩
              exact ⟨value.length + more, Nat.add_assoc .., Or.inr ⟨more, rfl, hin⟩⟩
            · rintro ⟨_, rfl, ⟨_, heq, hspan⟩ | ⟨more, rfl, hin⟩⟩
              · obtain rfl := Sum.inl.inj heq
                have hspan := Varint.span?_drop hspan
                omega
              · obtain ⟨changed, h⟩ := (hrest (offset + value.length)).mpr
                  ⟨more, (Nat.add_assoc ..).symm, hin⟩
                exact ⟨_, by rw [h]; rfl⟩
      | inr id =>
          obtain ⟨content, hcontent⟩ := hwhole id (List.mem_cons_self ..)
          have hbytes : (Path.ofRun (.inr id)).bytes registry = content := content_of_expansion hcontent
          rw [setVarintLoop, getsize_of_expansion hcontent, ok_bind, hbytes]
          constructor
          · rintro ⟨changed, h⟩
            obtain ⟨_, hlater, -⟩ := bind_eq_ok.mp h
            obtain ⟨more, rfl, hin⟩ := (hrest _).mp ⟨_, hlater⟩
            exact ⟨content.length + more, Nat.add_assoc .., Or.inr ⟨more, rfl, hin⟩⟩
          · rintro ⟨_, rfl, ⟨_, heq, -⟩ | ⟨more, rfl, hin⟩⟩
            · cases heq
            · obtain ⟨changed, h⟩ := (hrest (offset + content.length)).mpr
                ⟨more, (Nat.add_assoc ..).symm, hin⟩
              exact ⟨_, by rw [h]; rfl⟩

-- What lies in front of a varint that is rewritten stays where it is, and the blocks stay.
theorem setVarintLoop_frame {more newValue : Nat} (buffer : List (Bytes ⊕ BlockId)) (offset : Nat)
    (hwhole : ∀ id, .inr id ∈ buffer → ∃ content, registry.expansion id = some content)
    {changed : List (Bytes ⊕ BlockId)}
    (h : setVarintLoop registry (offset + more) newValue offset buffer = .ok changed) :
    (∀ id, .inr id ∈ changed ↔ .inr id ∈ buffer) ∧
      ∀ position < more, InPart registry changed position ↔ InPart registry buffer position := by
  have hblocks : ∀ (run : Bytes ⊕ BlockId) (rest changed : List (Bytes ⊕ BlockId)),
      (∀ id, .inr id ∈ changed ↔ .inr id ∈ rest) →
        ∀ id, .inr id ∈ run :: changed ↔ .inr id ∈ run :: rest :=
    fun run rest changed h id => by rw [List.mem_cons, List.mem_cons, h]
  -- behind a run that is passed over, the rest is rewritten as it stands there
  have hpass : ∀ (run : Bytes ⊕ BlockId) (rest changed : List (Bytes ⊕ BlockId)) (beyond : Nat),
      (∀ position < beyond, InPart registry changed position ↔ InPart registry rest position) →
        ∀ position < ((Path.ofRun run).bytes registry).length + beyond,
          InPart registry (run :: changed) position ↔ InPart registry (run :: rest) position := by
    intro run rest changed beyond hsame position hposition
    rw [inPart_cons, inPart_cons]
    refine or_congr_right (exists_congr fun left => and_congr_right fun hleft => hsame left ?_)
    omega
  induction buffer generalizing offset more changed with
  | nil => cases h
  | cons run rest ih =>
      have hrest := fun {offset more changed} => @ih more offset
        (fun id hid => hwhole id (List.mem_cons_of_mem _ hid)) changed
      cases run with
      | inl value =>
          rw [setVarintLoop] at h
          split at h
          · rename_i hinside
            rw [Nat.add_sub_cancel_left, setVarintIn] at h
            obtain ⟨bytes, hbytes, h⟩ := bind_eq_ok.mp h
            obtain rfl := Except.ok.inj h
            split at hbytes
            · cases hbytes
            · rename_i span hspan
              obtain rfl := Except.ok.inj hbytes
              refine ⟨fun id => by simp, fun position hposition => ?_⟩
              -- both before and after, the varint that is rewritten ends any in front of it
              have hafter : (Varint.span? ((value.take more ++ Varint.encode newValue ++
                  value.drop (more + span)).drop position)).isSome := by
                rw [List.append_assoc, List.drop_append_of_le_length (by rw [List.length_take]; omega)]
                exact Varint.span?_behind _ (by rw [Varint.span?_encode]; rfl)
              have hbefore : (Varint.span? (value.drop position)).isSome := by
                obtain ⟨between, rfl⟩ := Nat.exists_eq_add_of_lt hposition
                have hdrop : value.drop position =
                    (value.drop position).take (between + 1) ++ value.drop (position + between + 1) := by
                  rw [Nat.add_assoc, ← List.drop_drop, List.take_append_drop]
                rw [hdrop]
                exact Varint.span?_behind _ (by rw [hspan]; rfl)
              rw [inPart_cons, inPart_cons]
              exact iff_of_true (Or.inl ⟨_, rfl, hafter⟩) (Or.inl ⟨_, rfl, hbefore⟩)
          · rename_i hbeyond
            obtain ⟨later, hlater, h⟩ := bind_eq_ok.mp h
            obtain rfl := Except.ok.inj h
            obtain ⟨beyond, rfl⟩ := Nat.exists_eq_add_of_le (show value.length ≤ more by omega)
            rw [← Nat.add_assoc] at hlater
            obtain ⟨hids, hsame⟩ := hrest hlater
            exact ⟨hblocks _ _ _ hids, hpass (.inl value) _ _ _ hsame⟩
      | inr id =>
          obtain ⟨content, hcontent⟩ := hwhole id (List.mem_cons_self ..)
          have hbytes : (Path.ofRun (.inr id)).bytes registry = content := content_of_expansion hcontent
          rw [setVarintLoop, getsize_of_expansion hcontent, ok_bind] at h
          obtain ⟨later, hlater, h⟩ := bind_eq_ok.mp h
          obtain rfl := Except.ok.inj h
          have hin := (setVarintLoop_eq_ok rest (offset + content.length)
            fun id hid => hwhole id (List.mem_cons_of_mem _ hid)).mp ⟨later, hlater⟩
          obtain ⟨beyond, hbeyond, -⟩ := hin
          obtain rfl : more = content.length + beyond := by omega
          rw [← Nat.add_assoc] at hlater
          obtain ⟨hids, hsame⟩ := hrest hlater
          have hfront := hpass (.inr id) _ _ _ hsame
          rw [hbytes] at hfront
          exact ⟨hblocks _ _ _ hids, hfront⟩

-- From the last position to the first, every varint is rewritten where all of them lie in parts.
theorem setVarintValue_all (entries : List (Nat × Int))
    (hdescending : entries.Pairwise fun a b => b.1 < a.1) (buffer : List (Bytes ⊕ BlockId))
    (hwhole : ∀ id, .inr id ∈ buffer → ∃ content, registry.expansion id = some content) :
    (∃ changed, entries.foldlM
      (fun buffer entry => setVarintValue registry entry.1 buffer entry.2.toNat) buffer = .ok changed) ↔
      ∀ entry ∈ entries, InPart registry buffer entry.1 := by
  induction entries generalizing buffer with
  | nil => exact iff_of_true ⟨buffer, rfl⟩ fun _ h => absurd h List.not_mem_nil
  | cons entry entries ih =>
      rw [List.pairwise_cons] at hdescending
      have hfirst : (∃ changed, setVarintValue registry entry.1 buffer entry.2.toNat = .ok changed) ↔
          InPart registry buffer entry.1 := by
        refine (setVarintLoop_eq_ok buffer 0 hwhole).trans ⟨?_, fun h => ⟨_, (Nat.zero_add _).symm, h⟩⟩
        rintro ⟨more, hmore, h⟩
        rwa [hmore, Nat.zero_add]
      have hlater : ∀ changed, setVarintValue registry entry.1 buffer entry.2.toNat = .ok changed →
          ((∃ last, entries.foldlM
            (fun buffer entry => setVarintValue registry entry.1 buffer entry.2.toNat) changed =
              .ok last) ↔ ∀ other ∈ entries, InPart registry buffer other.1) := by
        intro changed hchanged
        rw [setVarintValue, ← Nat.zero_add entry.1] at hchanged
        obtain ⟨hids, hsame⟩ := setVarintLoop_frame buffer 0 hwhole hchanged
        rw [ih hdescending.2 changed fun id hid => hwhole id ((hids id).mp hid)]
        exact forall₂_congr fun other ho => hsame other.1 (hdescending.1 other ho)
      rw [List.forall_mem_cons, ← hfirst, List.foldlM_cons]
      constructor
      · rintro ⟨last, h⟩
        obtain ⟨changed, hchanged, h⟩ := bind_eq_ok.mp h
        exact ⟨⟨changed, hchanged⟩, (hlater changed hchanged).mp ⟨last, h⟩⟩
      · rintro ⟨⟨changed, hchanged⟩, hothers⟩
        obtain ⟨last, h⟩ := (hlater changed hchanged).mpr hothers
        exact ⟨last, by rw [hchanged]; exact h⟩

end

end BeeRpc
