import Ballistic.XmlReader

/-!
# What is written is read back

Element trees, the texts that are a serialisation of a list of trees, and what the reader makes of
them. The reader is followed through two descriptions of its work. On a serialisation it does what
`XmlReader.build` does, which walks over the trees and not over a text. What `build` leaves in the
tables is then computed: the trees stand in the order in which they are written, each behind its
parent.
-/

namespace Ballistic

open Lua

/-! ### Element trees -/

def IsName (name : List Char) : Prop := name ≠ [] ∧ ∀ c ∈ name, isNameChar c

structure Attributes.WellFormed (attrs : Attributes) : Prop where
  distinct : (attrs.map Prod.fst).Nodup
  name : ∀ a ∈ attrs, IsName a.1
  quote : ∀ a ∈ attrs, '"' ∉ a.2
  greater : ∀ a ∈ attrs, '>' ∉ a.2

def Node.IsText : Node → Prop
  | .text _ => True
  | .element .. => False

/-- Trees that stand side by side and can be told apart in a text. -/
inductive WellFormed : List Node → Prop where
  | nil : WellFormed []
  | text {text trees} (hne : text ≠ []) (hless : '<' ∉ text)
      (hfirst : ∀ tree ∈ trees.head?, ¬tree.IsText) (hnext : WellFormed trees) :
      WellFormed (.text text :: trees)
  | element {tag attrs children trees} (htag : IsName tag) (hattrs : attrs.WellFormed)
      (hchildren : WellFormed children) (hnext : WellFormed trees) :
      WellFormed (.element tag attrs children :: trees)

/-- Down into the children and on to the next sibling. -/
theorem forest_induction {motive : List Node → Prop} (nil : motive [])
    (text : ∀ text trees, motive trees → motive (.text text :: trees))
    (element : ∀ tag attrs children trees, motive children → motive trees →
      motive (.element tag attrs children :: trees)) : ∀ trees, motive trees
  | [] => nil
  | .text t :: trees => text t trees (forest_induction nil text element trees)
  | .element tag attrs children :: trees =>
      element tag attrs children trees (forest_induction nil text element children)
        (forest_induction nil text element trees)
termination_by trees => sizeOf trees

/-! ### Serialisations -/

/-- ` name="value"`. -/
def writeAttribute (a : List Char × List Char) : List Char :=
  ' ' :: (a.1 ++ '=' :: '"' :: (a.2 ++ ['"']))

/-- What stands between the brackets of an opening tag. -/
def writeTag (tag : List Char) (attrs : Attributes) : List Char := tag ++ attrs.flatMap writeAttribute

/-- A comment or a processing instruction. -/
inductive Misc : List Char → Prop where
  | comment {body} (hbody : ¬"-->".toList <:+: body) :
      Misc ('<' :: ("!--".toList ++ (body ++ "-->".toList)))
  | instruction {body} (hbody : ¬"?>".toList <:+: body) : Misc ('<' :: '?' :: (body ++ "?>".toList))

/-- The texts that a list of trees may be written as. -/
inductive Written : List Node → List Char → Prop where
  | nil : Written [] []
  | misc {misc trees xml} (hmisc : Misc misc) (hnext : Written trees xml) :
      Written trees (misc ++ xml)
  | text {text trees xml} (hnext : Written trees xml) : Written (.text text :: trees) (text ++ xml)
  | childless {tag attrs trees xml} (hnext : Written trees xml) :
      Written (.element tag attrs [] :: trees) ('<' :: (writeTag tag attrs ++ '/' :: '>' :: xml))
  | element {tag attrs children trees inner xml} (hchildren : Written children inner)
      (hnext : Written trees xml) :
      Written (.element tag attrs children :: trees)
        ('<' :: (writeTag tag attrs ++ '>' :: (inner ++ '<' :: '/' :: (tag ++ '>' :: xml))))

/-! ### Characters of a tag -/

section Characters

variable {c d : Char}

theorem toNat_le_of_isSpace (hc : isSpace c) : c.toNat ≤ 32 := by
  simp only [isSpace, Bool.or_eq_true, beq_iff_eq, Bool.and_eq_true, decide_eq_true_eq] at hc
  rcases hc with rfl | ⟨-, hhigh⟩
  · decide
  · have hle : c.toNat ≤ 13 := hhigh
    omega

theorem lt_toNat_of_isNameChar (hc : isNameChar c) : 32 < c.toNat := by
  have hnone : ∀ n < 33, isNameChar (Char.ofNat n) = false := by decide
  by_contra hle
  have hnot := hnone c.toNat (by omega)
  rw [Char.ofNat_toNat, hc] at hnot
  cases hnot

theorem not_isSpace_of_isNameChar (hc : isNameChar c) : ¬isSpace c := fun hspace =>
  absurd (toNat_le_of_isSpace hspace) (Nat.not_le.mpr (lt_toNat_of_isNameChar hc))

theorem ne_of_isNameChar (hc : isNameChar c) (hd : isNameChar d = false) : c ≠ d := by
  rintro rfl
  rw [hc] at hd
  cases hd

end Characters

/-! ### Attributes -/

section Attributes

variable {k v : List Char}

theorem matchItems_attributePattern (hk : IsName k) (hv : '"' ∉ v) (rest : List Char) :
    matchItems attributePattern (k ++ '=' :: '"' :: (v ++ '"' :: rest)) = some ([k, v], rest) := by
  have hname : Refuses attributePattern.tail isNameChar := by
    intro c s hc
    have hequals : matchItems attributePattern.tail.tail (c :: s) = none :=
      matchItems_once_none (by simpa using ne_of_isNameChar hc rfl)
    rw [attributePattern] at hequals ⊢
    simp only [List.tail_cons] at hequals ⊢
    rw [matchItems_star_of_not (not_isSpace_of_isNameChar hc), hequals, Option.map_none]
  have hquote : Refuses [⟨(· == '"'), .once, false⟩] (· != '"') := by
    intro c s hc
    exact matchItems_once_none (by simpa using hc)
  have hvalue : ∀ c ∈ v, (c != '"') := by
    intro c hc
    rw [bne_iff_ne]
    rintro rfl
    exact hv hc
  rw [attributePattern, List.tail_cons] at hname
  rw [attributePattern, matchItems_plus hk.1 hk.2 (by simp [isNameChar]) hname]
  rw [matchItems_star_of_not (by decide), matchItems_once (by decide),
    matchItems_star_of_not (by decide), matchItems_once (by decide),
    matchItems_star hvalue (by simp) hquote, matchItems_once (by decide)]
  rfl

/-- The matches are the attributes, each with a name and a value. -/
theorem gmatch_attributePattern {attrs : Attributes} (hname : ∀ a ∈ attrs, IsName a.1)
    (hquote : ∀ a ∈ attrs, '"' ∉ a.2) :
    gmatch attributePattern (attrs.flatMap writeAttribute) = attrs.map fun a => [a.1, a.2] := by
  induction attrs with
  | nil =>
      rw [List.flatMap_nil, gmatch]
      rfl
  | cons a attrs ih =>
      have hmatch := matchItems_attributePattern (hname a List.mem_cons_self)
        (hquote a List.mem_cons_self) (attrs.flatMap writeAttribute)
      have hrest := ih (fun a ha => hname a (List.mem_cons_of_mem _ ha))
        fun a ha => hquote a (List.mem_cons_of_mem _ ha)
      have hblank : ∀ s, matchItems attributePattern (' ' :: s) = none := fun s =>
        matchItems_plus_none (by decide)
      rw [List.flatMap_cons, writeAttribute, List.cons_append, gmatch_cons_of_none (hblank _),
        List.map_cons, ← hrest]
      simp only [List.append_assoc, List.cons_append, List.nil_append]
      apply gmatch_of_match hmatch
      simp only [List.length_append, List.length_cons]
      omega

theorem Attributes.set_of_not_mem {attrs : Attributes} (hk : k ∉ attrs.map Prod.fst) :
    attrs.set k v = attrs ++ [(k, v)] := by
  rw [Attributes.set, if_neg]
  intro hany
  obtain ⟨a, ha, heq⟩ := List.any_eq_true.mp hany
  exact hk (List.mem_map.mpr ⟨a, ha, of_decide_eq_true heq⟩)

theorem foldl_set {attrs before : Attributes} (hdistinct : ((before ++ attrs).map Prod.fst).Nodup) :
    (attrs.map fun a => [a.1, a.2]).foldl
      (fun attrs captures =>
        match captures with
        | [k, v] => Attributes.set attrs k v
        | _ => attrs) before = before ++ attrs := by
  induction attrs generalizing before with
  | nil => rw [List.map_nil, List.foldl_nil, List.append_nil]
  | cons a attrs ih =>
      have hmove : before ++ a :: attrs = (before ++ [a]) ++ attrs := by
        rw [List.append_assoc, List.singleton_append]
      have hnew : a.1 ∉ before.map Prod.fst := by
        rw [List.map_append, List.map_cons] at hdistinct
        intro hmem
        exact (List.nodup_append.mp hdistinct).2.2 _ hmem _ List.mem_cons_self rfl
      rw [List.map_cons, List.foldl_cons]
      dsimp only
      rw [Attributes.set_of_not_mem hnew, ih (hmove ▸ hdistinct), hmove]

/-- **Attributes.** The attributes that are written are read. -/
theorem readAttributes_written {attrs : Attributes} (hattrs : attrs.WellFormed) :
    readAttributes (attrs.flatMap writeAttribute) = attrs := by
  rw [readAttributes, gmatch_attributePattern hattrs.name hattrs.quote]
  exact foldl_set hattrs.distinct

end Attributes

/-! ### Tags -/

section Tags

variable {reader : XmlReader} {tag tagStr xml : List Char} {c : Char}

theorem writeAttribute_eq (a : List Char × List Char) :
    writeAttribute a = ' ' :: (a.1 ++ '=' :: '"' :: a.2) ++ ['"'] := by
  simp [writeAttribute]

theorem exists_writeTag (htag : IsName tag) (attrs : Attributes) :
    ∃ c rest, writeTag tag attrs = c :: rest ∧ isNameChar c := by
  obtain ⟨hne, hchars⟩ := htag
  cases tag with
  | nil => exact absurd rfl hne
  | cons c tag => exact ⟨c, tag ++ attrs.flatMap writeAttribute, rfl, hchars c List.mem_cons_self⟩

theorem head?_writeTag (htag : IsName tag) (attrs : Attributes) (rest : List Char) :
    (writeTag tag attrs ++ rest).head? ≠ some '/' := by
  obtain ⟨c, _, hwritten, hc⟩ := exists_writeTag htag attrs
  rw [hwritten, List.cons_append, List.head?_cons]
  intro hslash
  exact ne_of_isNameChar hc rfl (Option.some.inj hslash)

/-- A tag does not end with the sign of an element without children. -/
theorem getLast?_writeTag (htag : IsName tag) (attrs : Attributes) :
    (writeTag tag attrs).getLast? ≠ some '/' := by
  intro hslash
  cases attrs using List.reverseRecOn with
  | nil =>
      rw [writeTag, List.flatMap_nil, List.append_nil] at hslash
      exact ne_of_isNameChar (htag.2 _ (List.mem_of_getLast? hslash)) rfl rfl
  | append_singleton attrs a =>
      rw [writeTag, List.flatMap_append, List.flatMap_singleton, writeAttribute_eq,
        ← List.append_assoc, ← List.append_assoc, List.getLast?_concat] at hslash
      cases hslash

theorem head?_attributes (attrs : Attributes) :
    ∀ c ∈ (attrs.flatMap writeAttribute).head?, ¬(!isSpace c) := by
  intro c hc
  cases attrs with
  | nil => cases hc
  | cons a attrs =>
      rw [List.flatMap_cons, writeAttribute, List.cons_append, List.head?_cons] at hc
      obtain rfl := Option.some.inj hc
      decide

/-- What the reader makes of a tag that is not a closing one, with and without the last slash. -/
theorem readTag_written {attrs : Attributes} (htag : IsName tag) (hattrs : attrs.WellFormed)
    (isSelfClosing : Bool) :
    reader.readTag (writeTag tag attrs ++ if isSelfClosing then ['/'] else []) =
      (reader.insert (.element tag attrs [])).map fun inserted =>
        if isSelfClosing then inserted else inserted.push reader.nodes.length := by
  have hname : ∀ c ∈ tag, !isSpace c := by
    intro c hc
    simpa using not_isSpace_of_isNameChar (htag.2 c hc)
  have hclosing : ((writeTag tag attrs ++ if isSelfClosing then ['/'] else []).head? == some '/') =
      false := beq_eq_false_iff_ne.mpr (head?_writeTag htag _ _)
  have htake := takeWhile_run hname (head?_attributes attrs)
  have hdrop := dropWhile_run hname (head?_attributes attrs)
  simp only [XmlReader.readTag, hclosing, Bool.false_eq_true, if_false, Bool.not_false,
    Bool.true_and]
  cases isSelfClosing with
  | true =>
      simp only [if_true, List.getLast?_concat, beq_self_eq_true, List.dropLast_concat]
      rw [writeTag, htake, hdrop, readAttributes_written hattrs]
  | false =>
      have hlast := beq_eq_false_iff_ne.mpr (getLast?_writeTag htag attrs)
      simp only [Bool.false_eq_true, if_false, List.append_nil, hlast]
      rw [writeTag, htake, hdrop, readAttributes_written hattrs]

theorem readTag_closing : reader.readTag ('/' :: tag) = some reader.pop := by
  simp [XmlReader.readTag]

theorem greater_not_mem_name (htag : IsName tag) : '>' ∉ tag := fun hmem =>
  ne_of_isNameChar (htag.2 _ hmem) rfl rfl

theorem greater_not_mem_writeTag {attrs : Attributes} (htag : IsName tag)
    (hattrs : attrs.WellFormed) :
    '>' ∉ writeTag tag attrs := by
  rw [writeTag, List.mem_append, List.mem_flatMap]
  rintro (hmem | ⟨a, ha, hmem⟩)
  · exact greater_not_mem_name htag hmem
  · have hkey := greater_not_mem_name (hattrs.name a ha)
    have hvalue := hattrs.greater a ha
    simp [writeAttribute, hkey, hvalue] at hmem

/-! ### Turns of the loop -/

theorem not_starts {what rest : List Char} {d : Char} (hwhat : what.head? = some d) (hne : c ≠ d) :
    ¬what <+: c :: rest := by
  cases what with
  | nil => cases hwhat
  | cons d' what =>
      obtain rfl := Option.some.inj hwhat
      intro hstarts
      exact hne (List.cons_prefix_cons.mp hstarts).1.symm

theorem turn_tag (hbang : c ≠ '!') (hquestion : c ≠ '?') (hgreater : '>' ∉ c :: tagStr) :
    reader.turn (c :: (tagStr ++ '>' :: xml)) = .of xml (reader.readTag (c :: tagStr)) := by
  have hfind : find ">".toList (c :: (tagStr ++ '>' :: xml)) = some (c :: tagStr, xml) :=
    find_singleton hgreater
  rw [XmlReader.turn, if_neg (not_starts rfl hbang), if_neg (not_starts rfl hbang),
    if_neg (not_starts rfl hquestion), hfind]

theorem turn_comment {body : List Char} (hbody : ¬"-->".toList <:+: body) :
    reader.turn ("!--".toList ++ (body ++ ("-->".toList ++ xml))) = .moved reader xml := by
  have hfind : find "-->".toList (("!--".toList ++ (body ++ ("-->".toList ++ xml))).drop 3) =
      some (body, xml) := find_append_of_not_infix (by decide) hbody
  rw [XmlReader.turn, if_pos (List.prefix_append _ _), hfind]

theorem turn_instruction {body : List Char} (hbody : ¬"?>".toList <:+: body) :
    reader.turn ('?' :: (body ++ ("?>".toList ++ xml))) = .moved reader xml := by
  have hbang : '?' ≠ '!' := by decide
  have hfind : find "?>".toList (('?' :: (body ++ ("?>".toList ++ xml))).drop 1) =
      some (body, xml) := find_append_of_not_infix (by decide) hbody
  have hquestion : "?".toList <+: '?' :: (body ++ ("?>".toList ++ xml)) := List.prefix_append ['?'] _
  rw [XmlReader.turn, if_neg (not_starts rfl hbang), if_neg (not_starts rfl hbang),
    if_pos hquestion, hfind]

end Tags

/-! ### The loop -/

section Loop

variable {reader : XmlReader} {text markup xml misc : List Char} {tag : List Char}
  {attrs : Attributes}

/-- The function from the top of the loop on. -/
def XmlReader.read (reader : XmlReader) (xml : List Char) : Option (List Table) :=
  (reader.loop xml).bind fun (reader, xml) => (reader.insertText xml).map (·.nodes)

theorem loop_end (hless : '<' ∉ xml) : reader.loop xml = some (reader, xml) := by
  rw [XmlReader.loop]
  split
  case h_1 => rfl
  case h_2 hsome => cases (find_singleton_none hless).symm.trans hsome

theorem loop_append (hless : '<' ∉ text) :
    reader.loop (text ++ '<' :: markup) =
      (reader.insertText text).bind fun reader =>
        match reader.turn markup with
        | .raised => none
        | .broken => some (reader, text ++ '<' :: markup)
        | .moved reader xml => reader.loop xml := by
  have hfind : find "<".toList (text ++ '<' :: markup) = some (text, markup) := find_singleton hless
  rw [XmlReader.loop]
  split
  case h_1 hnone => cases hfind.symm.trans hnone
  case h_2 text' markup' hsome =>
    obtain ⟨rfl, rfl⟩ := Prod.mk.inj (Option.some.inj (hfind.symm.trans hsome))
    cases reader.insertText text with
    | none => rfl
    | some reader =>
        rw [Option.bind_some]
        dsimp only
        split <;> simp only [*]

theorem loop_markup :
    reader.loop ('<' :: markup) =
      match reader.turn markup with
      | .raised => none
      | .broken => some (reader, '<' :: markup)
      | .moved reader xml => reader.loop xml := loop_append List.not_mem_nil

/-- The text ends here, or goes on with markup that is complete. -/
def EndsText (xml : List Char) : Prop :=
  xml = [] ∨ ∃ markup, xml = '<' :: markup ∧ ∀ reader : XmlReader, reader.turn markup ≠ .broken

theorem insertText_of_ne_nil (hne : text ≠ []) :
    reader.insertText text = reader.insert (.text text) := if_neg hne

theorem read_nil : reader.read [] = some reader.nodes := by
  rw [XmlReader.read, loop_end List.not_mem_nil]
  rfl

theorem read_text (hne : text ≠ []) (hless : '<' ∉ text) (hends : EndsText xml) :
    reader.read (text ++ xml) = (reader.insert (.text text)).bind (·.read xml) := by
  obtain rfl | ⟨markup, rfl, hturn⟩ := hends
  · rw [List.append_nil, XmlReader.read, loop_end hless, Option.bind_some]
    dsimp only
    rw [insertText_of_ne_nil hne]
    cases reader.insert (.text text) with
    | none => rfl
    | some r => rw [Option.map_some, Option.bind_some, read_nil]
  · rw [XmlReader.read, loop_append hless, insertText_of_ne_nil hne]
    cases reader.insert (.text text) with
    | none => rfl
    | some r =>
        have hcomplete := hturn r
        rw [Option.bind_some, Option.bind_some, XmlReader.read, loop_markup]
        cases hr : r.turn markup with
        | raised => rfl
        | broken => exact absurd hr hcomplete
        | moved r' xml => rfl

theorem read_of_turn {result : Option XmlReader} (hturn : reader.turn markup = .of xml result) :
    reader.read ('<' :: markup) = result.bind (·.read xml) := by
  rw [XmlReader.read, loop_markup, hturn]
  cases result with
  | none => rfl
  | some r => rfl

/-! ### Markup -/

theorem turn_written {attrs : Attributes} (htag : IsName tag) (hattrs : attrs.WellFormed)
    (isSelfClosing : Bool) (reader : XmlReader) :
    reader.turn (writeTag tag attrs ++ ((if isSelfClosing then ['/'] else []) ++ '>' :: xml)) =
      .of xml ((reader.insert (.element tag attrs [])).map fun inserted =>
        if isSelfClosing then inserted else inserted.push reader.nodes.length) := by
  obtain ⟨c, tagStr, hwritten, hc⟩ := exists_writeTag htag attrs
  have hgreater : '>' ∉ writeTag tag attrs ++ if isSelfClosing then ['/'] else [] := by
    have htagStr := greater_not_mem_writeTag htag hattrs
    cases isSelfClosing <;> simp [htagStr]
  rw [← readTag_written htag hattrs, ← List.append_assoc]
  rw [hwritten, List.cons_append] at hgreater ⊢
  exact turn_tag (ne_of_isNameChar hc rfl) (ne_of_isNameChar hc rfl) hgreater

theorem turn_closing (htag : IsName tag) (reader : XmlReader) :
    reader.turn ('/' :: (tag ++ '>' :: xml)) = .of xml (some reader.pop) := by
  have hgreater : '>' ∉ '/' :: tag := by
    rw [List.mem_cons, not_or]
    exact ⟨by decide, greater_not_mem_name htag⟩
  rw [turn_tag (by decide) (by decide) hgreater, readTag_closing]

/-- Comments and processing instructions are skipped. -/
theorem exists_turn_misc (hmisc : Misc misc) (xml : List Char) :
    ∃ markup, misc ++ xml = '<' :: markup ∧
      ∀ reader : XmlReader, reader.turn markup = .of xml (some reader) := by
  cases hmisc with
  | @comment body hbody =>
      refine ⟨"!--".toList ++ (body ++ ("-->".toList ++ xml)), ?_, fun reader => turn_comment hbody⟩
      simp only [List.cons_append, List.append_assoc]
  | @instruction body hbody =>
      refine ⟨'?' :: (body ++ ("?>".toList ++ xml)), ?_, fun reader => turn_instruction hbody⟩
      simp only [List.cons_append, List.append_assoc]

theorem endsText_of_turn {result : XmlReader → Option XmlReader}
    (hturn : ∀ reader : XmlReader, reader.turn markup = .of xml (result reader)) :
    EndsText ('<' :: markup) := by
  refine Or.inr ⟨markup, rfl, fun reader hbroken => ?_⟩
  rw [hturn] at hbroken
  cases hresult : result reader <;> rw [hresult] at hbroken <;> cases hbroken

theorem read_opening {attrs : Attributes} (htag : IsName tag) (hattrs : attrs.WellFormed) :
    reader.read ('<' :: (writeTag tag attrs ++ '>' :: xml)) =
      (reader.insert (.element tag attrs [])).bind fun inserted =>
        (inserted.push reader.nodes.length).read xml := by
  have hread : reader.read ('<' :: (writeTag tag attrs ++ '>' :: xml)) = _ :=
    read_of_turn (turn_written htag hattrs false reader)
  rw [hread]
  cases reader.insert (.element tag attrs []) <;> rfl

theorem read_childless {attrs : Attributes} (htag : IsName tag) (hattrs : attrs.WellFormed) :
    reader.read ('<' :: (writeTag tag attrs ++ '/' :: '>' :: xml)) =
      (reader.insert (.element tag attrs [])).bind (·.read xml) := by
  have hread : reader.read ('<' :: (writeTag tag attrs ++ '/' :: '>' :: xml)) = _ :=
    read_of_turn (turn_written htag hattrs true reader)
  rw [hread]
  cases reader.insert (.element tag attrs []) <;> rfl

theorem read_closing (htag : IsName tag) :
    reader.read ('<' :: '/' :: (tag ++ '>' :: xml)) = reader.pop.read xml :=
  read_of_turn (turn_closing htag reader)

theorem read_misc (hmisc : Misc misc) : reader.read (misc ++ xml) = reader.read xml := by
  obtain ⟨markup, heq, hturn⟩ := exists_turn_misc hmisc xml
  rw [heq]
  exact read_of_turn (hturn reader)

end Loop

/-! ### A walk over the trees -/

/-- What the reader does to its tables and its stack while it goes over written trees. -/
def XmlReader.build (reader : XmlReader) : List Node → Option XmlReader
  | [] => some reader
  | .text text :: trees => (reader.insert (.text text)).bind (·.build trees)
  | .element tag attrs children :: trees =>
      (reader.insert (.element tag attrs [])).bind fun inserted =>
        ((inserted.push reader.nodes.length).build children).bind fun built =>
          built.pop.build trees
termination_by trees => sizeOf trees

section Written

variable {trees : List Node} {xml rest : List Char}

/-- Trees that do not start with a text start with markup. -/
theorem Written.endsText (hwritten : Written trees xml) (hwell : WellFormed trees)
    (hfirst : ∀ tree ∈ trees.head?, ¬tree.IsText) (hrest : EndsText rest) : EndsText (xml ++ rest) := by
  cases hwritten with
  | nil => exact hrest
  | misc hmisc =>
      rw [List.append_assoc]
      obtain ⟨markup, heq, hturn⟩ := exists_turn_misc hmisc _
      rw [heq]
      exact endsText_of_turn hturn
  | text => exact absurd trivial (hfirst _ rfl)
  | childless =>
      cases hwell with
      | element htag hattrs =>
          simp only [List.cons_append, List.append_assoc]
          exact endsText_of_turn (turn_written htag hattrs true)
  | element =>
      cases hwell with
      | element htag hattrs =>
          simp only [List.cons_append, List.append_assoc]
          exact endsText_of_turn (turn_written htag hattrs false)

/-- **The loop on written trees.** It does to the reader what a walk over the trees does. -/
theorem Written.read (hwritten : Written trees xml) (hwell : WellFormed trees) (hrest : EndsText rest)
    (reader : XmlReader) : reader.read (xml ++ rest) = (reader.build trees).bind (·.read rest) := by
  induction hwritten generalizing reader rest with
  | nil => rw [XmlReader.build, List.nil_append, Option.bind_some]
  | misc hmisc _ ih => rw [List.append_assoc, read_misc hmisc, ih hwell hrest]
  | text hnext ih =>
      cases hwell with
      | text hne hless hfirst hwellNext =>
          have hends := hnext.endsText hwellNext hfirst hrest
          rw [List.append_assoc, read_text hne hless hends, XmlReader.build, Option.bind_assoc]
          congr 1
          funext inserted
          exact ih hwellNext hrest inserted
  | childless hnext ih =>
      cases hwell with
      | element htag hattrs _ hwellNext =>
          simp only [List.cons_append, List.append_assoc]
          rw [read_childless htag hattrs, XmlReader.build, Option.bind_assoc]
          congr 1
          funext inserted
          rw [XmlReader.build, Option.bind_some, ih hwellNext hrest]
          rfl
  | @element tag _ _ _ _ xml hchildren hnext ihchildren ih =>
      cases hwell with
      | element htag hattrs hwellChildren hwellNext =>
          simp only [List.cons_append, List.append_assoc]
          have hclose : EndsText ('<' :: '/' :: (tag ++ '>' :: (xml ++ rest))) :=
            endsText_of_turn (turn_closing htag)
          rw [read_opening htag hattrs, XmlReader.build, Option.bind_assoc]
          congr 1
          funext inserted
          rw [ihchildren hwellChildren hclose, Option.bind_assoc]
          congr 1
          funext built
          rw [read_closing htag, ih hwellNext hrest]

end Written

/-! ### The tables of trees -/

def forestSize : List Node → Nat
  | [] => 0
  | .text _ :: trees => 1 + forestSize trees
  | .element _ _ children :: trees => 1 + forestSize children + forestSize trees
termination_by trees => sizeOf trees

/-- The references to trees that are laid out from `base` on. -/
def references (base : Nat) : List Node → List Nat
  | [] => []
  | .text _ :: trees => base :: references (base + 1) trees
  | .element _ _ children :: trees => base :: references (base + 1 + forestSize children) trees

/-- The tables of trees, each tree before its subtrees. -/
def tables (base : Nat) : List Node → List Table
  | [] => []
  | .text text :: trees => .text text :: tables (base + 1) trees
  | .element tag attrs children :: trees =>
      .element tag attrs (references (base + 1) children) ::
        (tables (base + 1) children ++ tables (base + 1 + forestSize children) trees)
termination_by trees => sizeOf trees

section Layout

variable {nodes more : List Table} {current : Nat} {stack children children' : List Nat}
  {tag : List Char} {attrs : Attributes} {node : Table}

theorem length_tables (trees : List Node) (base : Nat) :
    (tables base trees).length = forestSize trees := by
  induction trees using forest_induction generalizing base with
  | nil => rw [tables, forestSize, List.length_nil]
  | text text trees ih =>
      rw [tables, forestSize, List.length_cons, ih]
      omega
  | element tag attrs children trees ihchildren ih =>
      rw [tables, forestSize, List.length_cons, List.length_append, ihchildren, ih]
      omega

theorem insert_eq (hcurrent : nodes[current]? = some (.element tag attrs children)) :
    XmlReader.insert ⟨nodes, current :: stack⟩ node =
      some ⟨nodes.set current (.element tag attrs (children ++ [nodes.length])) ++ [node],
        current :: stack⟩ := by
  simp only [XmlReader.insert, hcurrent]

theorem getElem?_set_append (hcurrent : nodes[current]? = some (.element tag attrs children)) :
    (nodes.set current node ++ more)[current]? = some node := by
  have hlt := (List.getElem?_eq_some_iff.mp hcurrent).1
  rw [List.getElem?_append_left (by rwa [List.length_set]), List.getElem?_set_self hlt]

theorem set_set_append {node' : Table}
    (hcurrent : nodes[current]? = some (.element tag attrs children)) :
    (nodes.set current node ++ more).set current node' = nodes.set current node' ++ more := by
  have hlt := (List.getElem?_eq_some_iff.mp hcurrent).1
  rw [List.set_append_left _ _ (by rwa [List.length_set]), List.set_set]

/-- The walk appends the trees to the children of the current node, and their tables to the tables. -/
theorem build_eq (trees : List Node)
    (hcurrent : nodes[current]? = some (.element tag attrs children)) :
    XmlReader.build ⟨nodes, current :: stack⟩ trees =
      some ⟨nodes.set current (.element tag attrs (children ++ references nodes.length trees)) ++
        tables nodes.length trees, current :: stack⟩ := by
  induction trees using forest_induction generalizing nodes current stack tag attrs children with
  | nil =>
      obtain ⟨hlt, heq⟩ := List.getElem?_eq_some_iff.mp hcurrent
      rw [XmlReader.build, references, tables, List.append_nil, List.append_nil, ← heq,
        List.set_getElem_self]
  | text text trees ih =>
      rw [XmlReader.build, insert_eq hcurrent, Option.bind_some, ih (getElem?_set_append hcurrent),
        set_set_append hcurrent, references, tables]
      simp only [List.length_append, List.length_set, List.length_singleton, List.append_assoc,
        List.singleton_append]
  | element tag' attrs' children' trees ihchildren ih =>
      have hnew : ∀ node : Table,
          (nodes.set current node ++ [Table.element tag' attrs' []])[nodes.length]? =
            some (.element tag' attrs' []) := by
        intro node
        rw [List.getElem?_append_right (by rw [List.length_set]), List.length_set, Nat.sub_self]
        rfl
      have hset : ∀ node node' : Table,
          (nodes.set current node ++ [Table.element tag' attrs' []]).set nodes.length node' =
            nodes.set current node ++ [node'] := by
        intro node node'
        rw [List.set_append_right _ _ (by rw [List.length_set]), List.length_set, Nat.sub_self]
        rfl
      have hinserted : ∀ node : Table,
          (nodes.set current node ++ [Table.element tag' attrs' []]).length = nodes.length + 1 := by
        intro node
        rw [List.length_append, List.length_set, List.length_singleton]
      have hbuilt : ∀ node node' : Table,
          (nodes.set current node ++ ([node'] ++ tables (nodes.length + 1) children')).length =
            nodes.length + 1 + forestSize children' := by
        intro node node'
        rw [List.length_append, List.length_append, List.length_set, List.length_singleton,
          length_tables, Nat.add_assoc]
      rw [XmlReader.build, insert_eq hcurrent, Option.bind_some]
      dsimp only [XmlReader.push]
      rw [ihchildren (hnew _), Option.bind_some, hset, hinserted, List.append_assoc]
      dsimp only [XmlReader.pop, List.tail_cons]
      rw [ih (getElem?_set_append hcurrent), set_set_append hcurrent, hbuilt, references, tables]
      simp only [List.append_assoc, List.nil_append, List.cons_append]

theorem treesAt_tables (trees : List Node) (before after : List Table) :
    TreesAt (before ++ (tables before.length trees ++ after)) (references before.length trees)
      trees := by
  induction trees using forest_induction generalizing before after with
  | nil =>
      rw [references]
      exact .nil
  | text text trees ih =>
      have hnext := ih (before ++ [.text text]) after
      rw [List.length_append, List.length_singleton, List.append_assoc] at hnext
      rw [references, tables]
      refine .text ?_ hnext
      rw [List.getElem?_append_right le_rfl, Nat.sub_self]
      rfl
  | element tag attrs children trees ihchildren ih =>
      rw [references, tables]
      generalize hnode : Table.element tag attrs (references (before.length + 1) children) = node
      have hchildren := ihchildren (before ++ [node])
        (tables (before.length + 1 + forestSize children) trees ++ after)
      have hnext := ih (before ++ node :: tables (before.length + 1) children) after
      have hlength : (before ++ node :: tables (before.length + 1) children).length =
          before.length + 1 + forestSize children := by
        rw [List.length_append, List.length_cons, length_tables]
        omega
      rw [List.length_append, List.length_singleton] at hchildren
      rw [hlength] at hnext
      simp only [List.append_assoc, List.cons_append, List.nil_append] at hchildren hnext ⊢
      refine .element ?_ hchildren hnext
      rw [List.getElem?_append_right le_rfl, Nat.sub_self, hnode]
      rfl

end Layout

/-! ### The round trip -/

section RoundTrip

variable {trees trees' : List Node} {xml : List Char}

/-- The tree that hangs from the root. -/
def document (trees : List Node) : Node := .element "root".toList [] trees

theorem parseXmlFast_written (hwell : WellFormed trees) (hwritten : Written trees xml) :
    parseXmlFast xml = some (tables 0 [document trees]) := by
  have hread := hwritten.read hwell (Or.inl rfl) .start
  have hroot : XmlReader.start.nodes[0]? = some (.element "root".toList [] []) := rfl
  have hbuild : XmlReader.start.build trees = _ := build_eq trees hroot
  rw [List.append_nil, hbuild, Option.bind_some, read_nil] at hread
  rw [document, tables, tables, List.append_nil]
  exact hread

theorem treesAt_document (trees : List Node) :
    TreesAt (tables 0 [document trees]) [0] [document trees] := by
  have hat := treesAt_tables [document trees] [] []
  rw [List.append_nil, List.nil_append, document, references, references] at hat
  exact hat

/-- Every list of trees can be written. -/
theorem exists_written (trees : List Node) : ∃ xml, Written trees xml := by
  induction trees using forest_induction with
  | nil => exact ⟨[], .nil⟩
  | text text trees ih =>
      obtain ⟨xml, hwritten⟩ := ih
      exact ⟨_, .text hwritten⟩
  | element tag attrs children trees ihchildren ih =>
      obtain ⟨inner, hchildren⟩ := ihchildren
      obtain ⟨xml, hwritten⟩ := ih
      exact ⟨_, .element hchildren hwritten⟩

/-- A text is a serialisation of one list of trees at most. -/
theorem Written.unique (hwell : WellFormed trees) (hwell' : WellFormed trees')
    (hwritten : Written trees xml) (hwritten' : Written trees' xml) : trees = trees' := by
  have htables := (parseXmlFast_written hwell hwritten).symm.trans
    (parseXmlFast_written hwell' hwritten')
  have hat := treesAt_document trees
  rw [Option.some.inj htables] at hat
  have hroot := hat.unique (treesAt_document trees')
  exact (Node.element.inj (List.cons.inj hroot).1).2.2

/-- **Round trip.** What the reader returns for a serialisation of an element tree is a root whose
only child is that tree. -/
theorem parseXmlFast_serialisation {tag : List Char} {attrs : Attributes} {children : List Node}
    {xml : List Char} (hwell : WellFormed [.element tag attrs children])
    (hwritten : Written [.element tag attrs children] xml) :
    ∃ nodes, parseXmlFast xml = some nodes ∧
      TreesAt nodes [0] [.element "root".toList [] [.element tag attrs children]] :=
  ⟨_, parseXmlFast_written hwell hwritten, treesAt_document _⟩

theorem parseXmlFast_serialisation_nested :
    ∃ nodes, parseXmlFast "<a b=\"1\">x<!--c--><d/></a>".toList = some nodes ∧
      TreesAt nodes [0] [.element "root".toList []
        [.element "a".toList [("b".toList, "1".toList)]
          [.text "x".toList, .element "d".toList [] []]]] := by
  have ha : IsName "a".toList := ⟨by decide, List.all_eq_true.mp rfl⟩
  have hb : IsName "b".toList := ⟨by decide, List.all_eq_true.mp rfl⟩
  have hd : IsName "d".toList := ⟨by decide, List.all_eq_true.mp rfl⟩
  have hattrs : Attributes.WellFormed [("b".toList, "1".toList)] :=
    ⟨by decide, by simpa using hb, by simp, by simp⟩
  have hnone : Attributes.WellFormed [] := ⟨.nil, by simp, by simp, by simp⟩
  have hinner : WellFormed [.text "x".toList, .element "d".toList [] []] :=
    .text (by decide) (by decide) (by simp [Node.IsText])
      (.element hd hnone .nil .nil)
  have hcomment : Misc "<!--c-->".toList :=
    .comment (by decide : ¬"-->".toList <:+: ['c'])
  have hwritten : Written [.text "x".toList, .element "d".toList [] []] "x<!--c--><d/>".toList :=
    .text (.misc hcomment (.childless .nil))
  exact parseXmlFast_serialisation (.element ha hattrs hinner .nil)
    (.element hwritten .nil)

end RoundTrip

end Ballistic
