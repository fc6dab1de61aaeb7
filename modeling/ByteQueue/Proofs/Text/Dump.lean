import ByteQueue.Proofs.Text.Numeral
import Mathlib.Data.List.Basic

/-! What a dump is, for any blocks and on any stream: its lines are those of the pieces of all
bytes, with numbers in the notation of the stream, behind the fill that a pending width asks for.
Bytes can be read off their lines. -/
namespace ByteQueue.Dump

/-! The insertions are those for the bytes of all blocks. -/

section Insertions

variable {iterator : ByteIterator}

theorem insertions_eq (indentation : Text) (full : Nat) (ending : List Item)
    (place : iterator.Place) (hFull : (iterator.split place).2 ≠ [] → full ≠ 0) :
    insertions iterator indentation full ending place =
      (Bytes.pieces full (iterator.split place).2).flatMap fun line =>
        lineItems indentation full line ++ ending := by
  fun_induction insertions iterator indentation full ending place with
  | case1 place hNone =>
    rw [iterator.byte?_eq, List.head?_eq_none_iff] at hNone
    rw [hNone, Bytes.pieces, List.flatMap_nil]
  | case2 place byte hByte ih =>
    obtain ⟨after, hAfter⟩ := iterator.split_of_byte? hByte
    obtain ⟨last, hLine, hLast⟩ := line_eq indentation full hAfter
    have hFull : full ≠ 0 := hFull (by rw [hAfter]; exact List.cons_ne_nil byte after)
    obtain ⟨rest, rfl⟩ := Nat.exists_eq_succ_of_ne_zero hFull
    rw [ih fun _ => hFull, hLine, hLast, hAfter, Bytes.pieces, if_neg hFull, List.flatMap_cons]
    rfl

theorem full_ne_zero {lines : LineLength} (hLines : lines ≠ .bytes 0) {data : Bytes}
    (h : data ≠ []) : lines.full data.length ≠ 0 := by
  cases lines with
  | bytes count => exact fun h0 => hLines (congrArg LineLength.bytes h0)
  | whole => exact fun h0 => h (List.length_eq_zero_iff.mp h0)

theorem items_eq (data : Bytes) (indentation : Text) (lines : LineLength) :
    items data indentation lines =
      (Bytes.pieces (lines.full data.length) data).flatMap fun line =>
        lineItems indentation (lines.full data.length) line ++ ending lines := by
  cases lines with
  | bytes count => rfl
  | whole =>
    show _ = (Bytes.pieces data.length data).flatMap fun line =>
      lineItems indentation data.length line ++ []
    simp only [List.append_nil]
    by_cases hNone : data = []
    · rw [hNone]
      rfl
    · rw [items, Bytes.pieces_of_le hNone (.inl rfl),
        Bytes.pieces_of_le hNone (.inr (Nat.le_refl data.length))]

theorem blockItems_eq_items (iterator : ByteIterator) (blocks : List Block) (indentation : Text)
    {lines : LineLength} (hLines : lines ≠ .bytes 0) :
    blockItems iterator blocks indentation lines =
      items (blocks.flatMap Block.bytes) indentation lines := by
  have hLength : sumOf Block.length blocks = (blocks.flatMap Block.bytes).length := by
    rw [length_flatMap_eq_sumOf]
    simp only [Block.length_bytes]
  have hStart : (iterator.split (iterator.start blocks)).2 = blocks.flatMap Block.bytes := by
    rw [iterator.split_start]
  have hFull : (iterator.split (iterator.start blocks)).2 ≠ [] →
      lines.full (blocks.flatMap Block.bytes).length ≠ 0 := by
    rw [hStart]
    exact full_ne_zero hLines
  rw [blockItems, hLength, insertions_eq _ _ _ _ hFull, hStart, items_eq]

end Insertions

/-! The text of a line, with numbers in any notation. -/

/-- One line, up to the closing bracket. -/
def lineText (number : UInt8 → Text) (indentation : Text) (full : Nat) (line : Bytes) : Text :=
  indentation ++ '[' :: [' '].intercalate (line.map number)
    ++ List.replicate (3 * (full - line.length)) ' '
    ++ '|' :: line.map glyph ++ [']']

/-- What ends a line. -/
def endingText : LineLength → Text
  | .bytes _ => ['\n']
  | .whole => []

/-- All lines. -/
def linesText (number : UInt8 → Text) (data : Bytes) (indentation : Text) (lines : LineLength) :
    Text :=
  (Bytes.pieces (lines.full data.length) data).flatMap fun line =>
    lineText number indentation (lines.full data.length) line ++ endingText lines

/-- The dump that a stream with the format `f` receives: its first line is filled up to the pending
width. -/
def shown (f : Format) (data : Bytes) (indentation : Text) (lines : LineLength) : Text :=
  if data = [] then []
  else List.replicate (f.width - Text.width indentation) '0' ++
    linesText (numeral f) data indentation lines

theorem layout_eq (data : Bytes) (indentation : Text) (lines : LineLength) :
    layout data indentation lines = linesText digits data indentation lines := by
  cases lines with
  | bytes count => rfl
  | whole =>
    show (if data = [] then [] else lineLayout indentation data.length data) =
      (Bytes.pieces data.length data).flatMap fun line =>
        lineText digits indentation data.length line ++ []
    by_cases hNone : data = []
    · rw [if_pos hNone, hNone, Bytes.pieces, List.flatMap_nil]
    · rw [if_neg hNone, Bytes.pieces_of_le hNone (.inr (Nat.le_refl _)), List.flatMap_singleton,
        List.append_nil]
      rfl

/-- Without anything special in the format, a dump is its layout. -/
theorem shown_default (data : Bytes) (indentation : Text) (lines : LineLength) :
    shown {} data indentation lines = layout data indentation lines := by
  rw [layout_eq, shown, show numeral {} = digits from funext numeral_default]
  split
  · next hNone => rw [hNone, linesText, Bytes.pieces, List.flatMap_nil]
  · rw [Nat.zero_sub, List.replicate_zero, List.nil_append]

theorem intercalate_blank_cons (word : Text) (words : List Text) :
    [' '].intercalate (word :: words) = word ++ words.flatMap (' ' :: ·) := by
  induction words generalizing word with
  | nil => simp
  | cons next words ih => simp [ih]

/-! Printing the insertions. -/

/-- Items that come out as a text and leave the format as it is. -/
def Prints (g : Format) (items : List Item) (text : Text) : Prop := g.printAll items = (text, g)

namespace Prints

variable {g : Format} {α : Type}

theorem append {first second : List Item} {text more : Text} (h : Prints g first text)
    (hMore : Prints g second more) : Prints g (first ++ second) (text ++ more) := by
  unfold Prints at h hMore ⊢
  rw [Format.printAll_append, h, hMore]

theorem cons {item : Item} {items : List Item} {text more : Text} (h : Prints g [item] text)
    (hMore : Prints g items more) : Prints g (item :: items) (text ++ more) :=
  append h hMore

theorem flatMap {elements : List α} {items : α → List Item} {text : α → Text}
    (h : ∀ element, Prints g (items element) (text element)) :
    Prints g (elements.flatMap items) (elements.flatMap text) := by
  induction elements with
  | nil => rfl
  | cons first rest ih => exact append (h first) ih

variable (f : Format)

theorem text (text : Text) : Prints (steady f) [.text text] text := by
  show ((steady f).padded [] text ++ [], steady f) = (text, steady f)
  rw [padded_steady, List.append_nil]

theorem char (c : Char) : Prints (steady f) [.char c] [c] := text f [c]

theorem numbers (line : Bytes) :
    Prints (steady f) (numberItems line) ([' '].intercalate (line.map (numeral f))) := by
  cases line with
  | nil => rfl
  | cons first rest =>
    rw [List.map_cons, intercalate_blank_cons, List.flatMap_map]
    exact append (printAll_byteItems f first)
      (flatMap fun byte => cons (char f ' ') (printAll_byteItems f byte))

theorem blanks (count : Nat) :
    Prints (steady f) (List.replicate count (.text "   ".toList))
      (List.replicate (3 * count) ' ') := by
  induction count with
  | zero => rfl
  | succ count ih =>
    rw [Nat.mul_succ, Nat.add_comm, ← List.replicate_append_replicate]
    exact cons (text f "   ".toList) ih

theorem line (indentation : Text) (full : Nat) (line : Bytes) :
    Prints (steady f) (lineItems indentation full line)
      (lineText (numeral f) indentation full line) := by
  have hGlyphs : Prints (steady f) (line.map fun byte => .char (glyph byte)) (line.map glyph) := by
    rw [List.map_eq_flatMap, List.map_eq_flatMap]
    exact flatMap fun byte => char f (glyph byte)
  have hNumbers := (text f indentation).append (cons (char f '[') (numbers f line))
  have hPadded := hNumbers.append (blanks f (full - line.length))
  exact (hPadded.append (cons (char f '|') hGlyphs)).append (char f ']')

theorem ending (lines : LineLength) :
    Prints (steady f) (Dump.ending lines) (endingText lines) := by
  cases lines with
  | bytes count => exact char f '\n'
  | whole => rfl

end Prints

/-- A pending width fills up the text that comes next. -/
theorem printAll_pending (f : Format) {text shown : Text} {items : List Item}
    (h : Prints (steady f) (.text text :: items) shown) :
    (format f).printAll (.text text :: items) =
      (List.replicate (f.width - Text.width text) '0' ++ shown, steady f) := by
  have hFilled : (format f).padded [] text =
      List.replicate (f.width - Text.width text) '0' ++ text := by
    show List.replicate (f.width - (0 + Text.width text)) '0' ++ [] ++ text = _
    rw [Nat.zero_add, List.append_nil]
  have hRest : ((steady f).padded [] text ++ ((steady f).printAll items).1,
      ((steady f).printAll items).2) = (shown, steady f) := h
  obtain ⟨hText, hFormat⟩ := Prod.mk.inj hRest
  show ((format f).padded [] text ++ ((steady f).printAll items).1,
    ((steady f).printAll items).2) = _
  rw [hFilled, hFormat, ← hText, padded_steady, List.append_assoc]

/-- What a stream receives; no width is pending after it. -/
theorem printAll_items (f : Format) (data : Bytes) (indentation : Text) (lines : LineLength) :
    (format f).printAll (items data indentation lines) =
      (shown f data indentation lines, if data = [] then format f else steady f) := by
  rw [items_eq, shown]
  by_cases hNone : data = []
  · rw [if_pos hNone, if_pos hNone, hNone, Bytes.pieces, List.flatMap_nil, Format.printAll]
  · rw [if_neg hNone, if_neg hNone]
    have hPrints : Prints (steady f)
        ((Bytes.pieces (lines.full data.length) data).flatMap fun line =>
          lineItems indentation (lines.full data.length) line ++ ending lines)
        (linesText (numeral f) data indentation lines) :=
      Prints.flatMap fun line => (Prints.line f indentation _ line).append (Prints.ending f lines)
    obtain ⟨rest, hRest⟩ : ∃ rest, ((Bytes.pieces (lines.full data.length) data).flatMap fun line =>
        lineItems indentation (lines.full data.length) line ++ ending lines) =
          .text indentation :: rest := by
      rw [Bytes.pieces_of_ne_nil hNone, List.flatMap_cons]
      exact ⟨_, rfl⟩
    rw [hRest] at hPrints ⊢
    rw [printAll_pending f hPrints]

theorem print_eq_shown (f : Format) (data : Bytes) (indentation : Text) (lines : LineLength) :
    print f data indentation lines = shown f data indentation lines :=
  congrArg Prod.fst (printAll_items f data indentation lines)

/-- It does not matter to a dump where blocks begin and end. The precision, which is not restored,
has not been changed. -/
theorem dumpBlocks_eq_dump (stream : TextStream) (iterator : ByteIterator) (blocks : List Block)
    (indentation : Text) {lines : LineLength} (hLines : lines ≠ .bytes 0) :
    stream.dumpBlocks iterator blocks indentation lines =
      stream.dump (blocks.flatMap Block.bytes) indentation lines := by
  let printed := (format stream.format).printAll (blockItems iterator blocks indentation lines)
  have hDump : stream.dumpBlocks iterator blocks indentation lines =
      ⟨stream.text ++ printed.1, { stream.format with precision := printed.2.precision }⟩ := rfl
  have hPrinted : printed = _ := congrArg _ (blockItems_eq_items iterator blocks indentation hLines)
  have hPrecision : printed.2.precision = stream.format.precision := by
    rw [hPrinted, printAll_items]
    split <;> rfl
  rw [hDump, hPrecision, hPrinted]
  rfl

/-! Reading a dump. Up to its bar a line tells the numbers; these tell how many characters follow,
and with them where the line ends. -/

/-- What stands between the blanks of a text. -/
def wordsOf (text : Text) : List Text := (text.splitOn ' ').filter (· ≠ [])

theorem wordsOf_padded {words : List Text} (hWords : ∀ word ∈ words, IsWord word)
    (hSome : words ≠ []) (count : Nat) :
    wordsOf ([' '].intercalate words ++ List.replicate count ' ') = words := by
  have hBlanks : [' '].intercalate words ++ List.replicate count ' ' =
      [' '].intercalate (words ++ List.replicate count []) := by
    obtain ⟨word, rest, rfl⟩ := List.exists_cons_of_ne_nil hSome
    rw [List.cons_append, intercalate_blank_cons, intercalate_blank_cons, List.flatMap_append,
      List.append_assoc]
    simp [List.flatMap_replicate]
  have hFree : ∀ word ∈ words ++ List.replicate count [], ' ' ∉ word := by
    intro word hWord
    rcases List.mem_append.mp hWord with hWord | hWord
    · exact (hWords word hWord).blank_notMem
    · rw [List.eq_of_mem_replicate hWord]
      exact List.not_mem_nil
  have hAll : words.filter (· ≠ []) = words :=
    List.filter_eq_self.mpr fun word hWord => decide_eq_true (hWords word hWord).ne_nil
  rw [hBlanks, wordsOf, List.splitOn_intercalate ' ' hFree (by simp [hSome]), List.filter_append,
    hAll]
  simp

theorem bar_notMem_padded {words : List Text} (hWords : ∀ word ∈ words, IsWord word)
    (count : Nat) : '|' ∉ [' '].intercalate words ++ List.replicate count ' ' := by
  cases words with
  | nil => simp
  | cons word rest =>
    obtain ⟨hWord, hRest⟩ := List.forall_mem_cons.mp hWords
    rw [intercalate_blank_cons]
    simp only [List.mem_append, List.mem_flatMap, List.mem_cons, List.mem_replicate, not_or]
    refine ⟨⟨hWord.bar_notMem, ?_⟩, by simp⟩
    rintro ⟨word, hMore, hBlank | hBar⟩
    · cases hBlank
    · exact (hRest word hMore).bar_notMem hBar

theorem append_bar_inj {first second rest later : Text} (hFirst : '|' ∉ first)
    (hSecond : '|' ∉ second) (h : first ++ '|' :: rest = second ++ '|' :: later) :
    first = second ∧ rest = later := by
  have hCut {text : Text} (hText : '|' ∉ text) (tail : Text) :
      (text ++ '|' :: tail).takeWhile (· ≠ '|') = text := by
    rw [List.takeWhile_append_of_pos fun c hc => decide_eq_true (ne_of_mem_of_not_mem hc hText),
      List.takeWhile_cons_of_neg (by simp), List.append_nil]
  have hText : first = second := by rw [← hCut hFirst rest, h, hCut hSecond later]
  rw [hText] at h
  exact ⟨hText, (List.cons.inj (List.append_cancel_left h)).2⟩

variable {number other : UInt8 → Text}

theorem lineText_append_inj (hNumber : ∀ byte, IsWord (number byte))
    (hOther : ∀ byte, IsWord (other byte)) {indentation rest later : Text} {full wide : Nat}
    {first second : Bytes} (hFirst : first ≠ []) (hSecond : second ≠ [])
    (h : lineText number indentation full first ++ rest =
      lineText other indentation wide second ++ later) :
    first.map number = second.map other ∧ rest = later := by
  have hWords : ∀ word ∈ first.map number, IsWord word := by
    intro word hWord
    obtain ⟨byte, _, rfl⟩ := List.mem_map.mp hWord
    exact hNumber byte
  have hMore : ∀ word ∈ second.map other, IsWord word := by
    intro word hWord
    obtain ⟨byte, _, rfl⟩ := List.mem_map.mp hWord
    exact hOther byte
  unfold lineText at h
  simp only [List.append_assoc, List.cons_append] at h
  have hLine := (List.cons.inj (List.append_cancel_left h)).2
  rw [← List.append_assoc, ← List.append_assoc] at hLine
  obtain ⟨hNumbers, hRest⟩ :=
    append_bar_inj (bar_notMem_padded hWords _) (bar_notMem_padded hMore _) hLine
  have hSame : first.map number = second.map other := by
    rw [← wordsOf_padded hWords (by simpa using hFirst), hNumbers,
      wordsOf_padded hMore (by simpa using hSecond)]
  refine ⟨hSame, ?_⟩
  have hLength : (first.map glyph).length = (second.map glyph).length := by
    simpa using congrArg List.length hSame
  exact (List.cons.inj (List.append_inj hRest hLength).2).2

/-- Lines of the same indentation and ending tell the numbers in them, line after line. -/
theorem map_map_eq_of_lines (hNumber : ∀ byte, IsWord (number byte))
    (hOther : ∀ byte, IsWord (other byte)) {indentation ending : Text} {full wide : Nat}
    {first second : List Bytes} (hFirst : ∀ line ∈ first, line ≠ [])
    (hSecond : ∀ line ∈ second, line ≠ [])
    (h : (first.flatMap fun line => lineText number indentation full line ++ ending) =
      second.flatMap fun line => lineText other indentation wide line ++ ending) :
    first.map (List.map number) = second.map (List.map other) := by
  have hSome (number : UInt8 → Text) (full : Nat) (line : Bytes) (rest : Text) :
      lineText number indentation full line ++ ending ++ rest ≠ [] := by
    simp [lineText]
  induction first generalizing second with
  | nil =>
    cases second with
    | nil => rfl
    | cons line second => exact absurd h.symm (hSome other wide line _)
  | cons line first ih =>
    cases second with
    | nil => exact absurd h (hSome number full line _)
    | cons next second =>
      obtain ⟨hLine, hFirst⟩ := List.forall_mem_cons.mp hFirst
      obtain ⟨hNext, hSecond⟩ := List.forall_mem_cons.mp hSecond
      rw [List.flatMap_cons, List.flatMap_cons, List.append_assoc, List.append_assoc] at h
      obtain ⟨hSame, hRest⟩ := lineText_append_inj hNumber hOther hLine hNext h
      rw [List.map_cons, List.map_cons, hSame, ih hFirst hSecond (List.append_cancel_left hRest)]

/-- The bytes of a dump can be read off it. -/
theorem linesText_injective (indentation : Text) (lines : LineLength) :
    Function.Injective fun data => linesText digits data indentation lines := by
  intro first second h
  have hWords : ∀ byte, IsWord (digits byte) := isWord_numeral {}
  have hPieces := map_map_eq_of_lines hWords hWords
    (fun _ => Bytes.ne_nil_of_mem_pieces) (fun _ => Bytes.ne_nil_of_mem_pieces) h
  have hSame := List.map_injective_iff.mpr (List.map_injective_iff.mpr digits_injective) hPieces
  rw [← Bytes.flatten_pieces (lines.full first.length) first, hSame, Bytes.flatten_pieces]

theorem ofWord_ne_bytes_zero (word : UInt64) : LineLength.ofWord word ≠ .bytes 0 := by
  unfold LineLength.ofWord
  split
  · simp
  · next h0 =>
    split
    · simp
    · exact fun h => h0 (UInt64.toNat_inj.mp (LineLength.bytes.inj h))

theorem ofBlocks_eq_layout (iterator : ByteIterator) (blocks : List Block) (indentation : Text)
    {lines : LineLength} (hLines : lines ≠ .bytes 0) :
    ofBlocks iterator blocks indentation lines =
      layout (blocks.flatMap Block.bytes) indentation lines := by
  rw [ofBlocks, dumpBlocks_eq_dump {} iterator blocks indentation hLines, ← shown_default,
    ← print_eq_shown]
  rfl

/-- A dump of blocks is laid out as the bytes in them are, whatever iterator goes over them and
wherever they begin and end. For one indentation and one number of bytes a line, blocks have the
same dump just if they hold the same bytes. -/
theorem dump_tells_bytes (iterator : ByteIterator) (blocks : List Block) (indentation : Text)
    (perLine : UInt64) :
    ofBlocks iterator blocks indentation (.ofWord perLine) =
        layout (blocks.flatMap Block.bytes) indentation (.ofWord perLine) ∧
      ∀ others, ofBlocks iterator others indentation (.ofWord perLine) =
          ofBlocks iterator blocks indentation (.ofWord perLine) ↔
        others.flatMap Block.bytes = blocks.flatMap Block.bytes := by
  have hLines := ofWord_ne_bytes_zero perLine
  refine ⟨ofBlocks_eq_layout iterator blocks indentation hLines, fun others => ?_⟩
  rw [ofBlocks_eq_layout iterator others indentation hLines,
    ofBlocks_eq_layout iterator blocks indentation hLines, layout_eq, layout_eq]
  exact (linesText_injective indentation (.ofWord perLine)).eq_iff

/-- Three bytes in three blocks, one of which is empty, on lines of two bytes. The first line ends
inside a block and the second one is short. -/
theorem dump_tells_bytes_across_blocks :
    let blocks : List Block := [.ofBytes [0x61], .empty, .ofBytes [0x7a, 0x0a]]
    ofBlocks .zipper blocks [' '] (.ofWord 2) = " [61 7a|az]\n [0a   |.]\n".toList ∧
      ofBlocks .zipper [.ofBytes [0x61, 0x7a, 0x0a]] [' '] (.ofWord 2) =
        ofBlocks .zipper blocks [' '] (.ofWord 2) ∧
      ofBlocks .zipper [.ofBytes [0x61, 0x7a, 0x0b]] [' '] (.ofWord 2) ≠
        ofBlocks .zipper blocks [' '] (.ofWord 2) := by
  intro blocks
  obtain ⟨hLayout, hSame⟩ := dump_tells_bytes .zipper blocks [' '] 2
  have hPieces : Bytes.pieces 2 (blocks.flatMap Block.bytes) = [[0x61, 0x7a], [0x0a]] := by
    simp [blocks, Bytes.pieces]
  refine ⟨hLayout.trans ?_, (hSame _).mpr rfl, fun h => ?_⟩
  · rw [show LineLength.ofWord 2 = .bytes 2 from rfl, layout, hPieces]
    rfl
  · have hBytes := (hSame _).mp h
    simp [blocks] at hBytes

end ByteQueue.Dump
