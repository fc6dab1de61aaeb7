import ByteQueue.Proofs.Text.Dump

/-! What the format of a stream does to a dump, and a dump to the format. Base, alignment and fill
are set for the dump. The rest is as it was: shown bases and capital letters are found in the
numbers, and a pending width in front of them. -/
namespace ByteQueue.Dump

variable {number other : UInt8 → Text}

theorem length_flatMap_le {α β : Type} {elements : List α} {f g : α → List β}
    (h : ∀ element, (f element).length ≤ (g element).length) :
    (elements.flatMap f).length ≤ (elements.flatMap g).length := by
  induction elements with
  | nil => exact Nat.le_refl 0
  | cons first rest ih =>
    rw [List.flatMap_cons, List.flatMap_cons, List.length_append, List.length_append]
    exact Nat.add_le_add (h first) ih

/-- No notation is shorter than the plain one. -/
theorem length_linesText_le (h : ∀ byte, 2 ≤ (number byte).length) (data : Bytes)
    (indentation : Text) (lines : LineLength) :
    (linesText digits data indentation lines).length ≤
      (linesText number data indentation lines).length := by
  refine length_flatMap_le fun line => ?_
  have hNumbers : ([' '].intercalate (line.map digits)).length ≤
      ([' '].intercalate (line.map number)).length := by
    cases line with
    | nil => exact Nat.le_refl 0
    | cons first rest =>
      simp only [List.map_cons, intercalate_blank_cons, List.flatMap_map, List.length_append]
      exact Nat.add_le_add (h first) (length_flatMap_le fun byte => Nat.succ_le_succ (h byte))
  simp only [lineText, List.length_append, List.length_cons]
  omega

theorem mem_of_mem_pieces {limit : Nat} {data line : Bytes} (hLine : line ∈ data.pieces limit)
    {byte : UInt8} (h : byte ∈ line) : byte ∈ data := by
  rw [← Bytes.flatten_pieces limit data]
  exact List.mem_flatten.mpr ⟨line, hLine, h⟩

/-- Lines are told apart by their numbers. -/
theorem linesText_eq_iff (hNumber : ∀ byte, IsWord (number byte))
    (hOther : ∀ byte, IsWord (other byte)) (data : Bytes) (indentation : Text)
    (lines : LineLength) :
    linesText number data indentation lines = linesText other data indentation lines ↔
      ∀ byte ∈ data, number byte = other byte := by
  constructor
  · intro h
    have hPieces := map_map_eq_of_lines hNumber hOther
      (fun _ => Bytes.ne_nil_of_mem_pieces) (fun _ => Bytes.ne_nil_of_mem_pieces) h
    have hAll := congrArg List.flatten hPieces
    rw [← List.map_flatten, ← List.map_flatten, Bytes.flatten_pieces] at hAll
    exact List.map_inj_left.mp hAll
  · intro h
    unfold linesText
    refine List.flatMap_congr fun line hLine => ?_
    have hNumbers : line.map number = line.map other :=
      List.map_congr_left fun byte hByte => h byte (mem_of_mem_pieces hLine hByte)
    rw [lineText, lineText, hNumbers]

/-- A dump is laid out as usual just if nothing in the format changes it. -/
theorem shown_eq_layout_iff (f : Format) (data : Bytes) (indentation : Text) (lines : LineLength) :
    shown f data indentation lines = layout data indentation lines ↔
      data = [] ∨ f.width ≤ Text.width indentation ∧
        (f.showBase → ∀ byte ∈ data, byte = 0) ∧
        (f.upperCase → ∀ byte ∈ data, byte.toNat / 16 < 10 ∧ byte.toNat % 16 < 10) := by
  by_cases hNone : data = []
  · rw [← shown_default, shown, shown, if_pos hNone, if_pos hNone]
    exact ⟨fun _ => .inl hNone, fun _ => rfl⟩
  · have hNumbers := linesText_eq_iff (isWord_numeral f) (isWord_numeral {}) data indentation lines
    have hBytes : (∀ byte ∈ data, numeral f byte = numeral {} byte) ↔
        (f.showBase → ∀ byte ∈ data, byte = 0) ∧
          (f.upperCase → ∀ byte ∈ data, byte.toNat / 16 < 10 ∧ byte.toNat % 16 < 10) := by
      simp only [numeral_default, numeral_eq_digits_iff]
      exact ⟨fun h => ⟨fun hShown byte hByte => (h byte hByte).1 hShown,
          fun hUpper byte hByte => (h byte hByte).2 hUpper⟩,
        fun h byte hByte => ⟨fun hShown => h.1 hShown byte hByte,
          fun hUpper => h.2 hUpper byte hByte⟩⟩
    rw [or_iff_right hNone, ← hBytes, ← hNumbers, layout_eq, shown, if_neg hNone]
    constructor
    · intro h
      -- Numbers only grow, so there is no room for fill.
      have hGrown := length_linesText_le (two_le_length_numeral f) data indentation lines
      have hLength := congrArg List.length h
      rw [List.length_append, List.length_replicate] at hLength
      have hGap : f.width - Text.width indentation = 0 := by omega
      rw [hGap, List.replicate_zero, List.nil_append] at h
      exact ⟨Nat.le_of_sub_eq_zero hGap, h⟩
    · rintro ⟨hWidth, h⟩
      rw [Nat.sub_eq_zero_of_le hWidth, List.replicate_zero, List.nil_append]
      exact h

/-- A dump on any stream: the stream keeps its format, so that everything later is printed as if
there had been no dump. What the stream receives is the dump in the notation of its format, filled
up to its pending width. It is the dump as it is on its own just if no byte is at hand, or the width
is no more than that of the indentation, a shown base finds no byte but 0, and capital letters no
digit above 9. -/
theorem dump_under_format (stream : TextStream) (iterator : ByteIterator) (blocks : List Block)
    (indentation : Text) (perLine : UInt64) :
    let data := blocks.flatMap Block.bytes
    let lines := LineLength.ofWord perLine
    let after := stream.dumpBlocks iterator blocks indentation lines
    after.format = stream.format ∧
      (∀ items, after.print items =
        ⟨after.text ++ (stream.format.printAll items).1, (stream.print items).format⟩) ∧
      after.text = stream.text ++ shown stream.format data indentation lines ∧
      (after.text = stream.text ++ ofBlocks iterator blocks indentation lines ↔
        data = [] ∨ stream.format.width ≤ Text.width indentation ∧
          (stream.format.showBase → ∀ byte ∈ data, byte = 0) ∧
          (stream.format.upperCase →
            ∀ byte ∈ data, byte.toNat / 16 < 10 ∧ byte.toNat % 16 < 10)) := by
  intro data lines after
  have hLines : lines ≠ .bytes 0 := ofWord_ne_bytes_zero perLine
  have hAfter : after = stream.dump data indentation lines :=
    dumpBlocks_eq_dump stream iterator blocks indentation hLines
  have hFormat : after.format = stream.format := by
    rw [hAfter]
    rfl
  have hText : after.text = stream.text ++ shown stream.format data indentation lines := by
    rw [← print_eq_shown]
    exact congrArg TextStream.text hAfter
  refine ⟨hFormat, fun items => ?_, hText, ?_⟩
  · rw [TextStream.print, hFormat]
    rfl
  rw [hText, ofBlocks_eq_layout iterator blocks indentation hLines, List.append_cancel_left_eq]
  exact shown_eq_layout_iff stream.format data indentation lines

/-- One byte on a stream that shows bases. -/
theorem dump_marks_base :
    let stream : TextStream := TextStream.print {} [.change .showBase]
    let blocks : List Block := [.ofBytes [0x61]]
    let lines := LineLength.ofWord 4
    (stream.dumpBlocks .zipper blocks [] lines).text = "[0x61         |a]\n".toList ∧
      ofBlocks .zipper blocks [] lines = "[61         |a]\n".toList ∧
      (stream.dumpBlocks .zipper blocks [] lines).text ≠
        stream.text ++ ofBlocks .zipper blocks [] lines := by
  intro stream blocks lines
  have hLines : lines ≠ .bytes 0 := ofWord_ne_bytes_zero 4
  have hPieces : Bytes.pieces 4 [0x61] = [[0x61]] := by simp [Bytes.pieces]
  have hShown : (stream.dumpBlocks .zipper blocks [] lines).text =
      "[0x61         |a]\n".toList := by
    rw [dumpBlocks_eq_dump stream .zipper blocks [] hLines]
    show [] ++ print stream.format [0x61] [] (.bytes 4) = _
    rw [print_eq_shown, shown, if_neg (List.cons_ne_nil (0x61 : UInt8) []), linesText]
    show _ ++ (Bytes.pieces 4 [0x61]).flatMap _ = _
    rw [hPieces]
    rfl
  have hPlain : ofBlocks .zipper blocks [] lines = "[61         |a]\n".toList := by
    rw [ofBlocks_eq_layout .zipper blocks [] hLines]
    show layout [0x61] [] (.bytes 4) = _
    rw [layout, hPieces]
    rfl
  refine ⟨hShown, hPlain, ?_⟩
  rw [hShown, hPlain]
  decide

end ByteQueue.Dump
