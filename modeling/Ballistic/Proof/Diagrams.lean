import Ballistic.Generator

/-!
# Register diagrams and their masks

A diagram is read in two ways. The intended one goes by columns: a cell takes as many columns as its
span says, and only literal cells say anything. The generator goes by characters: it strings the
texts of the cells together, fills up on the left and takes each `0` or `1` for the bit it lands on.
Both give a row of optional bits under a top position, and the generator's mask is right exactly for
the boxes where the two rows agree.
-/

namespace Ballistic

/-! ### Rows of bits -/

/-- The entry over bit `p` of a row whose first entry is over bit `top - 1`. -/
def readRow : List (Option Bool) → Nat → Nat → Option Bool
  | [], _, _ => none
  | b :: row, top, p => if p + 1 = top then b else readRow row (top - 1) p

theorem readRow_ne_none {row : List (Option Bool)} {top p : Nat} (h : readRow row top p ≠ none) :
    p < top ∧ top ≤ p + row.length := by
  induction row generalizing top with
  | nil => exact absurd rfl h
  | cons b row ih =>
      rw [readRow] at h
      rw [List.length_cons]
      by_cases htop : p + 1 = top
      · omega
      · rw [if_neg htop] at h
        have hrange := ih h
        omega

/-- The bit that a character stands for in `process_box`. -/
def charBit (char : Char) : Option Bool :=
  if char = '1' then some true else if char = '0' then some false else none

theorem getLsbD_shifted (n p : Nat) : (1#32 <<< n).getLsbD p = decide (p = n ∧ p < 32) := by
  rw [BitVec.getLsbD_shiftLeft, BitVec.getLsbD_one]
  by_cases hp : p < 32
  · by_cases hn : p < n
    · simp [hn, hp, show p ≠ n by omega]
    · by_cases heq : p = n
      · simp [heq]
      · simp [hn, hp, heq, show p - n ≠ 0 by omega]
  · simp [hp]

theorem readRow_of_le {row : List (Option Bool)} {top p : Nat} (h : top ≤ p) :
    readRow row top p = none := by
  by_contra hne
  have hrange := readRow_ne_none hne
  omega

theorem processContent_cons {hibit i : Nat} (hi : i ≤ hibit) (char : Char) (content : List Char)
    (mask value : BitVec 32) :
    processContent hibit i (char :: content) mask value =
      processContent hibit (i + 1) content
        (if (charBit char).isSome then mask ||| 1#32 <<< (hibit - i) else mask)
        (if charBit char = some true then value ||| 1#32 <<< (hibit - i) else value) := by
  rw [processContent, if_neg (by omega)]
  by_cases hone : char = '1'
  · simp [charBit, hone]
  · by_cases hzero : char = '0'
    · simp [charBit, hzero]
    · simp [charBit, hone, hzero]

/-- The loop of `process_box` sets the bits of the row of its characters. -/
theorem processContent_bits {hibit : Nat} (hhibit : hibit < 32) (content : List Char) :
    ∀ (i : Nat) (mask value : BitVec 32), i + content.length ≤ hibit + 1 →
      ∃ mask' value', processContent hibit i content mask value = some (mask', value') ∧
        ∀ p, mask'.getLsbD p = (mask.getLsbD p ||
            (readRow (content.map charBit) (hibit + 1 - i) p).isSome) ∧
          value'.getLsbD p = (value.getLsbD p ||
            decide (readRow (content.map charBit) (hibit + 1 - i) p = some true)) := by
  induction content with
  | nil =>
      intro i mask value _
      exact ⟨mask, value, rfl, fun p => by simp [readRow]⟩
  | cons char content ih =>
      intro i mask value hfits
      rw [List.length_cons] at hfits
      rw [processContent_cons (by omega)]
      obtain ⟨mask', value', hprocess, hbits⟩ := ih (i + 1)
        (if (charBit char).isSome then mask ||| 1#32 <<< (hibit - i) else mask)
        (if charBit char = some true then value ||| 1#32 <<< (hibit - i) else value) (by omega)
      refine ⟨mask', value', hprocess, fun p => ?_⟩
      rw [(hbits p).1, (hbits p).2, List.map_cons, readRow]
      by_cases hp : p + 1 = hibit + 1 - i
      · have hnone : readRow (content.map charBit) (hibit + 1 - (i + 1)) p = none :=
          readRow_of_le (by omega)
        have hset : (1#32 <<< (hibit - i)).getLsbD p = true := by
          rw [getLsbD_shifted, decide_eq_true_eq]
          omega
        rw [if_pos hp, hnone]
        cases charBit char with
        | none => simp
        | some bit => cases bit <;> simp [hset]
      · have hclear : (1#32 <<< (hibit - i)).getLsbD p = false := by
          rw [getLsbD_shifted, decide_eq_false_iff_not]
          omega
        rw [if_neg hp, show hibit + 1 - i - 1 = hibit + 1 - (i + 1) by omega]
        cases charBit char with
        | none => simp
        | some bit => cases bit <;> simp [hclear]

theorem processContent_none {hibit : Nat} (content : List Char) :
    ∀ (i : Nat) (mask value : BitVec 32), i ≤ hibit + 1 → hibit + 1 < i + content.length →
      processContent hibit i content mask value = none := by
  induction content with
  | nil =>
      intro i mask value hi hlong
      rw [List.length_nil] at hlong
      omega
  | cons char content ih =>
      intro i mask value hi hlong
      rw [List.length_cons] at hlong
      by_cases hbelow : hibit < i
      · rw [processContent, if_pos hbelow]
      · rw [processContent_cons (by omega)]
        exact ih (i + 1) _ _ (by omega) (by omega)

/-! ### Diagrams -/

def bitChar (bit : Bool) : Char := if bit then '1' else '0'

/-- What a cell of a register diagram can hold. -/
inductive CellKind where
  | literal (bit : Bool)
  | shouldBe (bit : Bool)
  | empty
  | letter (char : Char) (halpha : char.isAlpha = true)
  | notEqual (bits : List (Option Bool))

def CellKind.text : CellKind → List Char
  | literal bit => [bitChar bit]
  | shouldBe bit => ['(', bitChar bit, ')']
  | empty => []
  | letter char _ => [char]
  | notEqual bits => ['!', '=', ' '] ++ bits.map fun bit => bit.elim 'x' bitChar

/-- What a cell says about each bit it stands over. -/
def CellKind.constraint : CellKind → Option Bool
  | literal bit => some bit
  | _ => none

structure DiagramCell where
  kind : CellKind
  colspan : Nat

/-- A box, as wide as its cells together. -/
structure DiagramBox where
  hibit : Nat
  cells : List DiagramCell

namespace DiagramBox

def width (b : DiagramBox) : Nat := (b.cells.map DiagramCell.colspan).sum

def box (b : DiagramBox) : Box :=
  ⟨some b.hibit, some b.width, b.cells.map fun c => ⟨c.kind.text, c.colspan⟩⟩

/-- The constraints of a box, column by column. -/
def columns (b : DiagramBox) : List (Option Bool) :=
  (b.cells.map fun c => List.replicate c.colspan c.kind.constraint).flatten

/-- The literal cell over bit `p`. -/
def literalAt (b : DiagramBox) (p : Nat) : Option Bool := readRow b.columns (b.hibit + 1) p

/-- The literal character that lands on bit `p`. -/
def characterAt (b : DiagramBox) (p : Nat) : Option Bool :=
  readRow (b.box.content.map charBit) (b.hibit + 1) p

theorem columns_length (b : DiagramBox) : b.columns.length = b.width := by
  rw [columns, width, List.length_flatten, List.map_map]
  congr 1
  refine List.map_congr_left fun c _ => ?_
  exact List.length_replicate

end DiagramBox

/-- The boxes cover the bits below `n`, from the top down. -/
def Tiles : Nat → List DiagramBox → Prop
  | n, [] => n = 0
  | n, b :: boxes => b.hibit + 1 = n ∧ b.width ≤ n ∧ Tiles (n - b.width) boxes

structure RegisterDiagram where
  boxes : List DiagramBox
  tiles : Tiles 32 boxes

/-- The bits a box stands over. -/
def DiagramBox.Covers (b : DiagramBox) (p : Nat) : Prop := p ≤ b.hibit ∧ b.hibit + 1 ≤ p + b.width

theorem DiagramBox.covers_of_literalAt {b : DiagramBox} {p : Nat} {bit : Bool}
    (h : b.literalAt p = some bit) : b.Covers p := by
  have hne : readRow b.columns (b.hibit + 1) p ≠ none := by
    rw [← DiagramBox.literalAt, h]
    exact Option.some_ne_none bit
  have hrange := readRow_ne_none hne
  rw [b.columns_length] at hrange
  exact ⟨Nat.lt_succ_iff.mp hrange.1, hrange.2⟩

theorem Tiles.hibit_lt {n : Nat} {boxes : List DiagramBox} (h : Tiles n boxes) :
    ∀ b ∈ boxes, b.hibit < n := by
  induction boxes generalizing n with
  | nil =>
      intro b hb
      cases hb
  | cons c boxes ih =>
      obtain ⟨htop, -, hrest⟩ := h
      intro b hb
      rcases List.mem_cons.mp hb with rfl | hb
      · omega
      · have hlt := ih hrest b hb
        omega

/-- No bit is under two boxes. -/
theorem Tiles.eq_of_covers {n p : Nat} {boxes : List DiagramBox} (h : Tiles n boxes)
    {b b' : DiagramBox} (hb : b ∈ boxes) (hb' : b' ∈ boxes) (hp : b.Covers p) (hp' : b'.Covers p) :
    b = b' := by
  induction boxes generalizing n with
  | nil => cases hb
  | cons c boxes ih =>
      obtain ⟨htop, -, hrest⟩ := h
      have hapart : ∀ d ∈ boxes, c.Covers p → ¬d.Covers p := by
        intro d hd hc hcovers
        have hlt := hrest.hibit_lt d hd
        have hlow := hc.2
        have hhigh := hcovers.1
        omega
      rcases List.mem_cons.mp hb with rfl | htail <;> rcases List.mem_cons.mp hb' with rfl | htail'
      · rfl
      · exact absurd hp' (hapart b' htail' hp)
      · exact absurd hp (hapart b htail hp')
      · exact ih hrest htail htail'

/-! ### Boxes -/

/-- The text of a box does not run below bit 0. -/
def DiagramBox.Fits (b : DiagramBox) : Prop := b.box.content.length ≤ b.hibit + 1

theorem processBox_bits {b : DiagramBox} (hhibit : b.hibit < 32) (hfits : b.Fits)
    (mask value : BitVec 32) :
    ∃ mask' value', processBox b.box mask value = some (mask', value') ∧
      ∀ p, mask'.getLsbD p = (mask.getLsbD p || (b.characterAt p).isSome) ∧
        value'.getLsbD p = (value.getLsbD p || decide (b.characterAt p = some true)) := by
  obtain ⟨mask', value', hprocess, hbits⟩ :=
    processContent_bits hhibit b.box.content 0 mask value (by rw [Nat.zero_add]; exact hfits)
  refine ⟨mask', value', ?_, hbits⟩
  rw [← hprocess]
  exact if_neg (by omega)

theorem fits_of_processBox {b : DiagramBox} {mask value : BitVec 32}
    {p : BitVec 32 × BitVec 32} (h : processBox b.box mask value = some p) : b.Fits := by
  by_contra hlong
  have hnone := processContent_none b.box.content 0 mask value (Nat.zero_le (b.hibit + 1))
    (by rw [Nat.zero_add]; exact not_le.mp hlong)
  simp only [processBox, DiagramBox.box] at h hnone
  rw [hnone] at h
  split at h <;> cases h

/-- The fold over the boxes of a diagram. -/
theorem processBoxes_bits (boxes : List DiagramBox) (hhibit : ∀ b ∈ boxes, b.hibit < 32)
    (hfits : ∀ b ∈ boxes, b.Fits) :
    ∀ mask value, ∃ mask' value',
      processBoxes (boxes.map DiagramBox.box) mask value = some (mask', value') ∧
      ∀ p, mask'.getLsbD p = (mask.getLsbD p || boxes.any fun b => (b.characterAt p).isSome) ∧
        value'.getLsbD p =
          (value.getLsbD p || boxes.any fun b => decide (b.characterAt p = some true)) := by
  induction boxes with
  | nil =>
      intro mask value
      exact ⟨mask, value, rfl, fun p => by simp⟩
  | cons b boxes ih =>
      intro mask value
      obtain ⟨mask₁, value₁, hprocess, hbits⟩ :=
        processBox_bits (hhibit b List.mem_cons_self) (hfits b List.mem_cons_self) mask value
      obtain ⟨mask₂, value₂, hrest, hbits'⟩ :=
        ih (fun c hc => hhibit c (List.mem_cons_of_mem b hc))
          (fun c hc => hfits c (List.mem_cons_of_mem b hc)) mask₁ value₁
      refine ⟨mask₂, value₂, ?_, fun p => ?_⟩
      · rw [List.map_cons, processBoxes, hprocess]
        exact hrest
      · rw [(hbits' p).1, (hbits' p).2, (hbits p).1, (hbits p).2, List.any_cons, List.any_cons,
          Bool.or_assoc, Bool.or_assoc]
        exact ⟨rfl, rfl⟩

/-! ### The meaning of a diagram -/

/-- `w` has the bit of every literal cell of the diagram. -/
def Denotes (diagram : RegisterDiagram) (w : BitVec 32) : Prop :=
  ∀ b ∈ diagram.boxes, ∀ p bit, b.literalAt p = some bit → w.getLsbD p = bit

/-- A box by itself constrains only bits it stands over, and every literal cell its own bits. -/
structure ConstrainsOwnBits (b : DiagramBox) (mask value : BitVec 32) : Prop where
  own : ∀ p, mask.getLsbD p = true → b.Covers p
  literal : ∀ p bit, b.literalAt p = some bit → mask.getLsbD p = true ∧ value.getLsbD p = bit

/-- What the mask and the value of a diagram should be. -/
structure RightMaskAndValue (diagram : RegisterDiagram) (mask value : BitVec 32) : Prop where
  processed : processBoxes (diagram.boxes.map DiagramBox.box) 0 0 = some (mask, value)
  matches_iff : ∀ w, w &&& mask = value ↔ Denotes diagram w
  value_and : value &&& ~~~mask = 0
  boxes : ∀ b ∈ diagram.boxes, ∃ m v, processBox b.box 0 0 = some (m, v) ∧ ConstrainsOwnBits b m v

/-- The text of a box, filled up on the left, has its literal characters exactly where the literal
cells stand. -/
structure DiagramBox.Aligned (b : DiagramBox) : Prop where
  fits : b.Fits
  characters : ∀ p, b.characterAt p = b.literalAt p

section Mask

variable {diagram : RegisterDiagram} {mask value : BitVec 32}

/-- The row that the mask and the value of a whole diagram are made of. -/
def MadeOf (diagram : RegisterDiagram) (mask value : BitVec 32)
    (row : DiagramBox → Nat → Option Bool) : Prop :=
  ∀ p, mask.getLsbD p = (diagram.boxes.any fun b => (row b p).isSome) ∧
    value.getLsbD p = diagram.boxes.any fun b => decide (row b p = some true)

theorem exists_madeOf (hfits : ∀ b ∈ diagram.boxes, b.Fits) :
    ∃ mask value, processBoxes (diagram.boxes.map DiagramBox.box) 0 0 = some (mask, value) ∧
      MadeOf diagram mask value DiagramBox.characterAt := by
  obtain ⟨mask, value, hprocess, hbits⟩ :=
    processBoxes_bits diagram.boxes diagram.tiles.hibit_lt hfits 0 0
  refine ⟨mask, value, hprocess, fun p => ?_⟩
  simpa using hbits p

theorem MadeOf.congr {row row' : DiagramBox → Nat → Option Bool} (h : MadeOf diagram mask value row)
    (hrow : ∀ b ∈ diagram.boxes, ∀ p, row b p = row' b p) : MadeOf diagram mask value row' := by
  intro p
  have hany : ∀ f : Option Bool → Bool,
      (diagram.boxes.any fun b => f (row b p)) = diagram.boxes.any fun b => f (row' b p) := by
    intro f
    rw [Bool.eq_iff_iff, List.any_eq_true, List.any_eq_true]
    exact exists_congr fun b => and_congr_right fun hb => by rw [hrow b hb p]
  exact ⟨(h p).1.trans (hany Option.isSome), (h p).2.trans (hany fun bit => decide (bit = some true))⟩

/-- A literal cell gives the mask and the value at its bits, since no other box stands over them. -/
theorem MadeOf.literal (h : MadeOf diagram mask value DiagramBox.literalAt) {b : DiagramBox}
    (hb : b ∈ diagram.boxes) {p : Nat} {bit : Bool} (hliteral : b.literalAt p = some bit) :
    mask.getLsbD p = true ∧ value.getLsbD p = bit := by
  refine ⟨?_, ?_⟩
  · rw [(h p).1, List.any_eq_true]
    exact ⟨b, hb, by rw [hliteral]; rfl⟩
  · rw [(h p).2]
    cases bit with
    | true => exact List.any_eq_true.mpr ⟨b, hb, by simpa using hliteral⟩
    | false =>
        rw [List.any_eq_false]
        intro b' hb' htrue
        have htrue' : b'.literalAt p = some true := by simpa using htrue
        obtain rfl := diagram.tiles.eq_of_covers hb hb'
          (DiagramBox.covers_of_literalAt hliteral) (DiagramBox.covers_of_literalAt htrue')
        rw [hliteral] at htrue'
        cases htrue'

theorem MadeOf.value_le (h : MadeOf diagram mask value DiagramBox.literalAt) {p : Nat}
    (hclear : mask.getLsbD p = false) : value.getLsbD p = false := by
  rw [(h p).1, List.any_eq_false] at hclear
  rw [(h p).2, List.any_eq_false]
  intro b hb htrue
  have htrue' : b.literalAt p = some true := by simpa using htrue
  exact hclear b hb (by rw [htrue']; rfl)

theorem MadeOf.matches_iff (h : MadeOf diagram mask value DiagramBox.literalAt) (w : BitVec 32) :
    w &&& mask = value ↔ Denotes diagram w := by
  constructor
  · intro hmatch b hb p bit hliteral
    obtain ⟨hmask, hvalue⟩ := h.literal hb hliteral
    have hbit := congrArg (fun v => v.getLsbD p) hmatch
    simp only [BitVec.getLsbD_and, hmask, Bool.and_true, hvalue] at hbit
    exact hbit
  · intro hdenotes
    apply BitVec.eq_of_getLsbD_eq
    intro p _
    rw [BitVec.getLsbD_and]
    cases hmask : mask.getLsbD p with
    | false => rw [Bool.and_false, h.value_le hmask]
    | true =>
        rw [(h p).1, List.any_eq_true] at hmask
        obtain ⟨b, hb, hsome⟩ := hmask
        obtain ⟨bit, hliteral⟩ := Option.isSome_iff_exists.mp hsome
        rw [Bool.and_true, hdenotes b hb p bit hliteral, (h.literal hb hliteral).2]

theorem MadeOf.value_and (h : MadeOf diagram mask value DiagramBox.literalAt) :
    value &&& ~~~mask = 0 := by
  apply BitVec.eq_of_getLsbD_eq
  intro p hp
  rw [BitVec.getLsbD_and, BitVec.getLsbD_not]
  cases hmask : mask.getLsbD p with
  | true => simp
  | false => simp [h.value_le hmask]

/-- Aligned boxes give the right mask and value. -/
theorem exists_right_of_aligned (haligned : ∀ b ∈ diagram.boxes, b.Aligned) :
    ∃ mask value, RightMaskAndValue diagram mask value := by
  obtain ⟨mask, value, hprocess, hmade⟩ := exists_madeOf fun b hb => (haligned b hb).fits
  have hliteral : MadeOf diagram mask value DiagramBox.literalAt := by
    refine hmade.congr fun b hb p => ?_
    exact (haligned b hb).characters p
  refine ⟨mask, value, hprocess, hliteral.matches_iff, hliteral.value_and, fun b hb => ?_⟩
  obtain ⟨m, v, hbox, hbits⟩ :=
    processBox_bits (diagram.tiles.hibit_lt b hb) (haligned b hb).fits 0 0
  refine ⟨m, v, hbox, fun p hp => ?_, fun p bit hbit => ?_⟩
  · have hsome : (b.literalAt p).isSome = true := by
      rw [(hbits p).1, (haligned b hb).characters] at hp
      simpa using hp
    obtain ⟨bit, hbit⟩ := Option.isSome_iff_exists.mp hsome
    exact DiagramBox.covers_of_literalAt hbit
  · rw [(hbits p).1, (hbits p).2, (haligned b hb).characters, hbit]
    simp

/-- A bit that a box constrains although no literal cell stands over it makes the mask wrong. -/
theorem RightMaskAndValue.aligned (h : RightMaskAndValue diagram mask value) :
    ∀ b ∈ diagram.boxes, b.Aligned := by
  have hfits : ∀ b ∈ diagram.boxes, b.Fits := by
    intro b hb
    obtain ⟨m, v, hbox, -⟩ := h.boxes b hb
    exact fits_of_processBox hbox
  obtain ⟨mask', value', hprocess, hmade⟩ := exists_madeOf hfits
  obtain ⟨rfl, rfl⟩ := Prod.mk.inj (Option.some.inj (hprocess.symm.trans h.processed))
  intro b hb
  obtain ⟨m, v, hbox, hown⟩ := h.boxes b hb
  obtain ⟨m', v', hbox', hbits⟩ := processBox_bits (diagram.tiles.hibit_lt b hb) (hfits b hb) 0 0
  obtain ⟨rfl, rfl⟩ := Prod.mk.inj (Option.some.inj (hbox'.symm.trans hbox))
  refine ⟨hfits b hb, fun p => ?_⟩
  have hmask : m'.getLsbD p = (b.characterAt p).isSome := by simpa using (hbits p).1
  have hvalue : v'.getLsbD p = decide (b.characterAt p = some true) := by simpa using (hbits p).2
  cases hliteral : b.literalAt p with
  | some bit =>
      obtain ⟨hset, hbit⟩ := hown.literal p bit hliteral
      rw [hmask] at hset
      obtain ⟨c, hc⟩ := Option.isSome_iff_exists.mp hset
      rw [hvalue, hc] at hbit
      rw [hc, ← hbit]
      cases c <;> rfl
  | none =>
      by_contra hstray
      have hsome : (b.characterAt p).isSome = true := Option.isSome_iff_ne_none.mpr hstray
      have hcovers := hown.own p (hmask.trans hsome)
      have hset : mask'.getLsbD p = true := by
        rw [(hmade p).1, List.any_eq_true]
        exact ⟨b, hb, hsome⟩
      -- the value and the value with bit `p` flipped have the same literal bits
      have hself : value' &&& mask' = value' := by
        apply BitVec.eq_of_getLsbD_eq
        intro q hq
        have hzero := congrArg (fun v => v.getLsbD q) h.value_and
        rw [BitVec.getLsbD_and]
        cases hm : mask'.getLsbD q with
        | true => rw [Bool.and_true]
        | false =>
            simp only [BitVec.getLsbD_and, BitVec.getLsbD_not, hq, hm] at hzero
            simpa using hzero.symm
      have hflipped : Denotes diagram (value' ^^^ 1#32 <<< p) := by
        intro b' hb' q bit hq
        have hne : q ≠ p := by
          rintro rfl
          obtain rfl := diagram.tiles.eq_of_covers hb hb' hcovers
            (DiagramBox.covers_of_literalAt hq)
          rw [hliteral] at hq
          cases hq
        have hbit := (h.matches_iff value').mp hself b' hb' q bit hq
        rw [BitVec.getLsbD_xor, getLsbD_shifted, hbit]
        simp [hne]
      have hmatch := congrArg (fun v => v.getLsbD p) ((h.matches_iff _).mpr hflipped)
      have hp := BitVec.lt_of_getLsbD hset
      simp only [BitVec.getLsbD_and, hset, BitVec.getLsbD_xor, getLsbD_shifted, hp] at hmatch
      simp at hmatch

/-- **Register diagrams become the right mask and value** exactly if every box is aligned. -/
theorem rightMaskAndValue_iff (diagram : RegisterDiagram) :
    (∃ mask value, RightMaskAndValue diagram mask value) ↔ ∀ b ∈ diagram.boxes, b.Aligned := by
  constructor
  · rintro ⟨mask, value, h⟩
    exact h.aligned
  · exact exists_right_of_aligned

end Mask

def literalCells (bits : List Bool) : List DiagramCell := bits.map fun bit => ⟨.literal bit, 1⟩

/-- The diagram of the scalar `SSHR`, whose `immh` box holds `!= 0000`. -/
def sshrDiagram : RegisterDiagram where
  boxes :=
    [⟨31, literalCells [false, true]⟩, ⟨29, literalCells [false]⟩,
      ⟨28, literalCells [true, true, true, true, true, false]⟩,
      ⟨22, [⟨.notEqual [some false, some false, some false, some false], 4⟩]⟩,
      ⟨18, [⟨.empty, 3⟩]⟩, ⟨15, literalCells [false, false]⟩, ⟨13, literalCells [false]⟩,
      ⟨12, literalCells [false]⟩, ⟨11, literalCells [false]⟩, ⟨10, literalCells [true]⟩,
      ⟨9, [⟨.empty, 5⟩]⟩, ⟨4, [⟨.empty, 5⟩]⟩]
  tiles := by simp [Tiles, DiagramBox.width, literalCells]

/-- The characters of `!= 0000` fix bits 16 to 19. -/
theorem notEqual_fixes_bits :
    processBoxes (sshrDiagram.boxes.map DiagramBox.box) 0 0 = some (0xFF8FFC00, 0x5F000400) ∧
      ¬∃ mask value, RightMaskAndValue sshrDiagram mask value := by
  refine ⟨by decide, ?_⟩
  rintro ⟨mask, value, h⟩
  let immh : DiagramBox := ⟨22, [⟨.notEqual [some false, some false, some false, some false], 4⟩]⟩
  have haligned : immh.Aligned := h.aligned immh (by simp [sshrDiagram, immh])
  have hcharacter : immh.characterAt 19 = some false := by decide
  have hliteral : immh.literalAt 19 = none := by decide
  have heq := haligned.characters 19
  rw [hcharacter, hliteral] at heq
  cases heq

end Ballistic
