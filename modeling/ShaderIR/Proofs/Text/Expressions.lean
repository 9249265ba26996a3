import ShaderIR.Program.Printer
import ShaderIR.Proofs.Answers
import ShaderIR.Proofs.Node.Children
import ShaderIR.Proofs.Outline.Basic
import ShaderIR.Proofs.Text.Phrases

/-!
Texts of expressions can be read in one way only. What an expression is written as depends on its
tree (`Tree.spelling`, `Program.Draws.nodeText_eq`): a node and the texts of its operands make a
phrase (`Node.Phrased`). The phrase is known from its spelling, and the node, up to ids and recorded
types, from the phrase, so that two expressions with one text are the same but for these
(`Program.alike_of_nodeText_eq`).
-/

set_option autoImplicit false

namespace ShaderIR

/-! ### Names and symbols -/

namespace Operator

theorem isWord_name (op : Operator) : IsWord op.name.toList := by
  cases op <;> decide

theorem exists_cons_name (op : Operator) :
    ∃ char rest, op.name.toList = char :: rest ∧ char ≠ '(' := by
  cases op <;> exact ⟨_, _, rfl, by decide⟩

theorem name_inj {op op' : Operator} (hname : op.name = op'.name) : op = op' :=
  Option.some.inj ((ofName?_name op).symm.trans ((congrArg ofName? hname).trans (ofName?_name op')))

theorem arity_pos (op : Operator) : 0 < op.arity := by
  cases op <;> decide

theorem isWord_symbol {op : Operator} {symbol : String} (hsymbol : op.symbol? = some symbol) :
    IsWord symbol.toList := by
  cases op <;> cases hsymbol <;> decide

theorem arity_of_symbol? {op : Operator} {symbol : String} (hsymbol : op.symbol? = some symbol) :
    op.arity = 2 := by
  cases op <;> first | rfl | cases hsymbol

theorem find?_symbol {op : Operator} {symbol : String} (hsymbol : op.symbol? = some symbol) :
    (all.find? fun other => other.symbol? == some symbol) = some op := by
  cases op <;> cases hsymbol <;> decide

theorem symbol_inj {op op' : Operator} {symbol : String} (hsymbol : op.symbol? = some symbol)
    (hsymbol' : op'.symbol? = some symbol) : op = op' :=
  Option.some.inj ((find?_symbol hsymbol).symm.trans (find?_symbol hsymbol'))

end Operator

namespace TextureOp

theorem isWord_name (op : TextureOp) : IsWord op.name.toList := by
  cases op <;> decide

theorem exists_cons_name (op : TextureOp) :
    ∃ char rest, op.name.toList = char :: rest ∧ char ≠ '(' := by
  cases op <;> exact ⟨_, _, rfl, by decide⟩

theorem ofName?_name (op : TextureOp) : ofName? op.name = some op := by
  cases op <;> decide +kernel

theorem name_inj {op op' : TextureOp} (hname : op.name = op'.name) : op = op' :=
  Option.some.inj ((ofName?_name op).symm.trans ((congrArg ofName? hname).trans (ofName?_name op')))

/-- No operator has the name of a texture operation. -/
theorem name_ne_name (op : TextureOp) (other : Operator) : other.name ≠ op.name := by
  intro hname
  have hnone : Operator.ofName? op.name = none := by cases op <;> decide +kernel
  rw [← hname, Operator.ofName?_name] at hnone
  cases hnone

end TextureOp

theorem Swizzle.isWord_text (mask : Swizzle) : IsWord mask.text.toList := by
  intro char hchar
  rw [text, String.toList_ofList] at hchar
  obtain ⟨lane, -, rfl⟩ := List.mem_map.mp hchar
  exact (by decide : ∀ lane, letter lane ∉ punctuation) lane

theorem Swizzle.text_inj {mask mask' : Swizzle} (htext : mask.text.toList = mask'.text.toList) :
    mask = mask' := by
  rw [text, text, String.toList_ofList, String.toList_ofList] at htext
  have hinjective : Function.Injective letter := fun lane lane' hsame =>
    Option.some.inj ((lane?_letter lane).symm.trans
      ((congrArg lane? hsame).trans (lane?_letter lane')))
  have hlanes := hinjective.list_map htext
  cases mask
  cases mask'
  cases hlanes
  rfl

/-! ### Channels -/

/-- How a texture operation names the channel that it gathers. -/
def channelText : Option UInt8 → List Char
  | some channel => '[' :: ((toString channel.toNat).toList ++ [']'])
  | none => []

theorem isWord_toString (number : Nat) : IsWord (toString number).toList := by
  intro char hchar
  have hdigit := Nat.isDigit_of_mem_toDigits (by decide) (by decide) (Nat.toList_repr ▸ hchar)
  intro hmem
  simp only [punctuation, List.mem_cons, List.not_mem_nil, or_false] at hmem
  rcases hmem with rfl | rfl | rfl | rfl | rfl | rfl | rfl | rfl <;> exact absurd hdigit (by decide)

theorem toString_inj {number number' : Nat}
    (hsame : (toString number).toList = (toString number').toList) :
    number = number' := by
  have hdigits : Nat.toDigits 10 number = Nat.toDigits 10 number' :=
    Nat.toList_repr.symm.trans (hsame.trans Nat.toList_repr)
  rw [← @Nat.ofDigitChars_ten_toDigits number, hdigits, Nat.ofDigitChars_ten_toDigits]

theorem enclosed_channelText (channel : Option UInt8) :
    Enclosed [' ', ',', ':'] (channelText channel) := by
  cases channel with
  | none => exact .of_plain (by simp [channelText])
  | some channel =>
    exact ((isWord_toString _).enclosed
      (List.nil_subset _)).bracketed (by decide) (by decide) (by decide) (by decide)

/-- What stands behind a word, up to a bracket, is known with the word. -/
theorem append_channelText_inj {word word' : List Char}
    {channel channel' : Option UInt8} (hword : IsWord word)
    (hword' : IsWord word') (hsame : word ++ channelText channel = word' ++ channelText channel') :
    word = word' ∧ channel = channel' := by
  cases channel with
  | none =>
    cases channel' with
    | none => exact ⟨by simpa [channelText] using hsame, rfl⟩
    | some channel' =>
      rw [channelText, channelText, List.append_nil] at hsame
      exact absurd (hsame ▸ List.mem_append_right _ List.mem_cons_self)
        (hword.not_mem (by decide : '[' ∈ punctuation))
  | some channel =>
    cases channel' with
    | none =>
      rw [channelText, channelText, List.append_nil] at hsame
      exact absurd (hsame ▸ List.mem_append_right _ List.mem_cons_self)
        (hword'.not_mem (by decide : '[' ∈ punctuation))
    | some channel' =>
      obtain ⟨hsameWord, hsameDigits⟩ :=
        Phrase.bracketed_inj ((isWord_toString _).enclosed (List.nil_subset _))
        ((isWord_toString _).enclosed (List.nil_subset _)) (by decide) hsame
      exact ⟨hsameWord, congrArg some (UInt8.toNat_inj.mp (toString_inj hsameDigits))⟩

theorem TextureOp.name_ne_append_channelText (op : TextureOp)
    (other : Operator) (channel : Option UInt8) :
    other.name.toList ≠ op.name.toList ++ channelText channel := by
  intro hsame
  have hplain : other.name.toList ++ channelText none = op.name.toList ++ channelText channel :=
    (List.append_nil _).trans hsame
  exact op.name_ne_name other
    (String.toList_inj.mp (append_channelText_inj other.isWord_name op.isWord_name hplain).1)

/-! ### Labels of texture operands -/

/-- What may be written before an operand of a texture operation. -/
def IsLabel (label : String) : Prop :=
  label = "" ∨ ∃ word, IsWord word ∧ label.toList = word ++ [':', ' ']

theorem IsLabel.enclosed {label : String} (hlabel : IsLabel label) :
    Enclosed [','] label.toList := by
  rcases hlabel with rfl | ⟨word, hword, hlabel⟩
  · exact .of_plain (by simp)
  · rw [hlabel]
    have hseparator : Enclosed [','] [':', ' '] :=
      (Enclosed.of_char (by decide) (by decide)).append (.of_char (by decide) (by decide))
    exact (hword.enclosed (by decide)).append hseparator

namespace TextureOperands

variable {α β : Type}

/-- What is written before the operands of a texture operation, in canonical order. -/
def labels {α : Type} (operands : TextureOperands α) : List String :=
  operands.labelled.map Prod.fst

theorem length_labels (operands : TextureOperands α) :
    operands.labels.length = operands.toList.length := by
  rw [labels, List.length_map, ← operands.labelled_map_snd, List.length_map]

/-- Behind the label of the sampler, each operand that is present has its own. -/
theorem mem_tail_labels_iff {operands : TextureOperands α} {label : String} :
    label ∈ operands.labels.tail ↔
    label = "" ∧ operands.coordinate.isSome ∨ label = "proj: " ∧ operands.projector.isSome ∨
      label = "cmp: " ∧ operands.comparator.isSome ∨ label = "offset: " ∧ operands.offset.isSome ∨
      label = "bias: " ∧ operands.lod.shape = .bias () ∨
      label = "lod: " ∧ operands.lod.shape = .level () ∨
      (label = "dpdx: " ∨ label = "dpdy: ") ∧ operands.lod.shape = .gradient () () ∨
      label = "sample: " ∧ operands.lod.shape = .sample () ∨ label = "state: " ∧
      operands.samplerState.isSome := by
  have hoptional {operand : Option α} {found : String} :
      label ∈ List.map (fun _ => found) operand.toList ↔ label = found ∧ operand.isSome := by
    cases operand <;> simp
  cases hlod : operands.lod <;> simp only [labels, labelled, hlod, Lod.shape, List.map_cons,
      List.map_append, List.map_map, Function.comp_def, List.tail_cons, List.mem_append,
      hoptional, List.map_nil, List.not_mem_nil, List.mem_cons, or_false, or_assoc,
      reduceCtorEq, and_false, false_or, and_true]

theorem isLabel_of_mem_labels {operands : TextureOperands α}
    {label : String} (hlabel : label ∈ operands.labels) :
    IsLabel label := by
  have hknown :
      ∀ found ∈ ["proj: ", "cmp: ", "offset: ", "bias: ", "lod: ", "dpdx: ", "dpdy: ",
          "sample: ", "state: "], IsWord (found.toList.takeWhile (· ≠ ':')) ∧
      found.toList = found.toList.takeWhile (· ≠ ':') ++ [':', ' '] := by
    decide
  rw [show operands.labels = "" :: operands.labels.tail from rfl, List.mem_cons,
    mem_tail_labels_iff] at hlabel
  by_cases hempty : label = ""
  · exact Or.inl hempty
  · refine Or.inr ⟨_, hknown label ?_⟩
    simp only [hempty, false_and, false_or] at hlabel
    simp only [List.mem_cons, List.not_mem_nil, or_false]
    tauto

/-- The labels say which operands are present. -/
theorem shape_of_labels {operands : TextureOperands α} {operands' : TextureOperands β}
    (hlabels : operands.labels = operands'.labels) : operands.shape = operands'.shape := by
  have hpresent (label : String) :
      label ∈ operands.labels.tail ↔ label ∈ operands'.labels.tail := by rw [hlabels]
  simp only [mem_tail_labels_iff] at hpresent
  have hmap {operand : Option α} {operand' : Option β}
      (hsome : operand.isSome = true ↔ operand'.isSome = true) :
      operand.map (fun _ => ()) = operand'.map fun _ => () := by
    cases operand <;> cases operand' <;> simp_all
  have hlod : operands.lod.shape = operands'.lod.shape := by
    have hbias : operands.lod.shape = .bias () ↔ operands'.lod.shape = .bias () := by
        simpa using hpresent "bias: "
    have hlevel : operands.lod.shape = .level () ↔ operands'.lod.shape = .level () := by
        simpa using hpresent "lod: "
    have hgradient :
        operands.lod.shape = .gradient () () ↔ operands'.lod.shape = .gradient () () := by
      simpa using hpresent "dpdx: "
    have hsample : operands.lod.shape = .sample () ↔ operands'.lod.shape = .sample () := by
      simpa using hpresent "sample: "
    revert hbias hlevel hgradient hsample
    cases operands.lod.shape <;> cases operands'.lod.shape <;> simp
  rw [shape, shape, hlod, hmap (by simpa using hpresent ""),
    hmap (by simpa using hpresent "proj: "),
    hmap (by simpa using hpresent "cmp: "), hmap (by simpa using hpresent "offset: "),
    hmap (by simpa using hpresent "state: ")]

end TextureOperands
theorem IsLabel.append_inj {label label' : String} {text text' : List Char} (hlabel : IsLabel label)
    (hlabel' : IsLabel label') (htext : Enclosed [',', ':'] text)
    (htext' : Enclosed [',', ':'] text') (hsame : label.toList ++ text = label'.toList ++ text') :
    label = label' ∧ text = text' := by
  have hcolon : ':' ∈ [',', ':'] := List.mem_cons_of_mem _ (List.mem_singleton_self _)
  have hnone {word rest text : List Char} (hword : IsWord word) (htext : Enclosed [',', ':'] text) :
      text ≠ word ++ ':' :: rest := fun hsplit =>
    absurd (htext.inside hsplit hcolon) (hword.enclosed (List.nil_subset _)).closed.not_gt
  rcases hlabel with rfl | ⟨word, hword, hlabel⟩
  · rcases hlabel' with rfl | ⟨word', hword', hlabel'⟩
    · exact ⟨rfl, hsame⟩
    · rw [hlabel', List.append_assoc] at hsame
      exact absurd hsame (hnone hword' htext)
  · rw [hlabel, List.append_assoc] at hsame
    rcases hlabel' with rfl | ⟨word', hword', hlabel'⟩
    · exact absurd hsame.symm (hnone hword htext')
    · rw [hlabel', List.append_assoc] at hsame
      obtain ⟨rfl, -, hbehind⟩ := Enclosed.append_cons_inj (hword.enclosed (by decide))
        (hword'.enclosed (by decide)) hcolon hcolon hsame
      exact ⟨String.toList_inj.mp (hlabel.trans hlabel'.symm), (List.cons.inj hbehind).2⟩

/-- Labels and texts without colons of their own are known from their row. -/
theorem labels_inj {labels labels' : List String} {texts texts' : List (List Char)}
    (hlabels : ∀ label ∈ labels, IsLabel label) (hlabels' : ∀ label ∈ labels', IsLabel label)
    (htexts : ∀ text ∈ texts, Enclosed [',', ':'] text)
    (htexts' : ∀ text ∈ texts', Enclosed [',', ':'] text)
    (hlength : labels.length = texts.length) (hlength' : labels'.length = texts'.length)
    (hsame : List.zipWith (fun label text => label.toList ++ text) labels texts =
      List.zipWith (fun label text => label.toList ++ text) labels' texts') :
      labels = labels' ∧ texts = texts' := by
  induction labels generalizing labels' texts texts' with
  | nil =>
    obtain rfl := List.eq_nil_of_length_eq_zero hlength.symm
    have hnone := congrArg List.length hsame
    simp only [List.length_zipWith, List.length_nil, ← hlength', Nat.min_self] at hnone
    obtain rfl := List.eq_nil_of_length_eq_zero hnone.symm
    exact ⟨rfl, (List.eq_nil_of_length_eq_zero hlength'.symm).symm⟩
  | cons label labels ih =>
    obtain ⟨text, texts, rfl⟩ := List.exists_cons_of_length_eq_add_one hlength.symm
    cases labels' with
    | nil => simp at hsame
    | cons label' labels' =>
      obtain ⟨text', texts', rfl⟩ := List.exists_cons_of_length_eq_add_one hlength'.symm
      rw [List.forall_mem_cons] at hlabels hlabels' htexts htexts'
      obtain ⟨hfirst, hrest⟩ := List.cons.inj hsame
      obtain ⟨hsameLabel, hsameText⟩ := hlabels.1.append_inj hlabels'.1 htexts.1 htexts'.1 hfirst
      obtain ⟨hsameLabels, hsameTexts⟩ := ih hlabels.2 hlabels'.2 htexts.2 htexts'.2
        (Nat.succ.inj hlength) (Nat.succ.inj hlength') hrest
      exact ⟨by rw [hsameLabel, hsameLabels], by rw [hsameText, hsameTexts]⟩

/-! ### What a node says -/

/-- The names of the variables are different words. -/
structure Program.NamesApart (program : Program) : Prop where
  isWord : ∀ declared ∈ program.vars, IsWord declared.name.toList
  nodup : (program.vars.toList.map Variable.name).Nodup

theorem Program.NamesApart.eq_of_name {program : Program}
    (hnames : program.NamesApart) {id id' : VarId}
    {declared declared' : Variable} (hdeclared : program.variableOf id = .ok declared)
    (hdeclared' : program.variableOf id' = .ok declared') (hname : declared.name = declared'.name) :
    id = id' := by
  rw [Program.variableOf_eq_ok_iff, ← Array.getElem?_toList] at hdeclared hdeclared'
  have hsame : (program.vars.toList.map Variable.name)[id.index]? =
      (program.vars.toList.map Variable.name)[id'.index]? := by
    rw [List.getElem?_map, List.getElem?_map, hdeclared, hdeclared', Option.map_some,
      Option.map_some, hname]
  have hrange : id.index < (program.vars.toList.map Variable.name).length := by
    rw [List.length_map]
    exact (List.getElem?_eq_some_iff.mp hdeclared).1
  cases id
  cases id'
  exact congrArg VarId.mk ((List.getElem?_inj hrange hnames.nodup).mp hsame)

namespace Node

/-- Nodes of expressions whose text says all about them; an operator has as many operands as it
takes. -/
inductive Legible (program : Program) : Node → Prop
  | variable {id : VarId} {declared : Variable} (hdeclared : program.variableOf id = .ok declared) :
    Legible program (.variable id)
  | index (base place : NodeId) : Legible program (.index base place)
  | swizzle (value : NodeId) (mask : Swizzle) : Legible program (.swizzle value mask)
  | apply {op : Operator} {operands : List NodeId}
      (ty : Ty) (hlength : operands.length = op.arity) :
    Legible program (.apply op operands ty)
  | texture (op : TextureOp) (channel : Option UInt8)
      (operands : TextureOperands NodeId) (ty : Ty) :
    Legible program (.texture op channel operands ty)

theorem Legible.isStatement_eq {program : Program} {node : Node} (hlegible : node.Legible program) :
    node.isStatement = false := by
  cases hlegible <;> rfl

/-- The phrase of a node, from the texts of its operands, each nested and alone. -/
def phrase (program : Program) (node : Node) (texts : List (Bool → List Char)) : Phrase :=
  match node, texts with
  | .variable id, _ =>
    .name ((program.vars[id.index]?.map fun declared => declared.name.toList).getD [])
  | .index .., [base, place] => .index (base true) (place false)
  | .swizzle _ mask, [value] => .swizzle (value true) mask.text.toList
  | .apply op _ _, texts =>
    match op.symbol?, texts with
    | some symbol, [left, right] => .operation (left true) symbol.toList (right true)
    | _, _ => .call op.name.toList (texts.map fun text => text false)
  | .texture op channel operands _, texts =>
    .call (op.name.toList ++ channelText channel) (List.zipWith
        (fun label text => label.toList ++ text) operands.labels (texts.map fun text => text false))
  | _, _ => .name []

/-- The phrases of legible nodes, case by case. -/
inductive Phrased (program : Program) : Node → List (Bool → List Char) → Phrase → Prop
  | variable {id : VarId} {declared : Variable} (hdeclared : program.variableOf id = .ok declared) :
    Phrased program (.variable id) [] (.name declared.name.toList)
  | index (base place : NodeId) (baseText placeText : Bool → List Char) :
    Phrased program (.index base place) [baseText, placeText]
      (.index (baseText true) (placeText false))
  | swizzle (value : NodeId) (mask : Swizzle) (text : Bool → List Char) :
    Phrased program (.swizzle value mask) [text] (.swizzle (text true) mask.text.toList)
  | operation {op : Operator} {symbol : String} (hsymbol : op.symbol? = some symbol)
    (left right : NodeId) (ty : Ty) (leftText rightText : Bool → List Char) :
    Phrased program (.apply op [left, right] ty) [leftText, rightText]
        (.operation (leftText true) symbol.toList (rightText true))
  | call {op : Operator} (hsymbol : op.symbol? = none) {operands : List NodeId} (ty : Ty)
    {texts : List (Bool → List Char)}
    (hlength : texts.length = operands.length) (hne : texts ≠ []) :
    Phrased program (.apply op operands ty) texts
      (.call op.name.toList (texts.map fun text => text false))
  | texture (op : TextureOp) (channel : Option UInt8) {operands : TextureOperands NodeId} (ty : Ty)
    {texts : List (Bool → List Char)} (hlength : texts.length = operands.toList.length) :
    Phrased program (.texture op channel operands ty) texts (.call
      (op.name.toList ++ channelText channel) (List.zipWith (fun label text => label.toList ++ text)
        operands.labels (texts.map fun text => text false)))

variable {program : Program} {node node' : Node} {texts texts' : List (Bool → List Char)}
  {said : Phrase}

theorem Legible.phrased (hlegible : node.Legible program)
    (hlength : texts.length = node.children.length) :
    node.Phrased program texts (node.phrase program texts) := by
  cases hlegible with
  | @«variable» id declared hdeclared =>
    obtain rfl := List.eq_nil_of_length_eq_zero hlength
    have hphrase : phrase program (.variable id) [] = .name declared.name.toList := by
      rw [phrase, Program.variableOf_eq_ok_iff.mp hdeclared, Option.map_some, Option.getD_some]
    rw [hphrase]
    exact .variable hdeclared
  | index base place =>
    match texts, hlength with
    | [baseText, placeText], _ => exact .index base place baseText placeText
  | swizzle value mask =>
    match texts, hlength with
    | [text], _ => exact .swizzle value mask text
  | @apply op operands ty harity =>
    have hlength : texts.length = operands.length := hlength
    cases hsymbol : op.symbol? with
    | some symbol =>
      rw [Operator.arity_of_symbol? hsymbol] at harity
      match operands, texts, harity, hlength with
      | [left, right], [leftText, rightText], _, _ =>
        have hphrase : phrase program (.apply op [left, right] ty) [leftText, rightText] =
            .operation (leftText true) symbol.toList (rightText true) := by
          simp only [phrase, hsymbol]
        rw [hphrase]
        exact .operation hsymbol left right ty leftText rightText
    | none =>
      have hphrase : phrase program (.apply op operands ty) texts =
          .call op.name.toList (texts.map fun text => text false) := by
        simp only [phrase, hsymbol]
      rw [hphrase]
      refine .call hsymbol ty hlength fun hnil => ?_
      have hpos := op.arity_pos
      rw [← harity, ← hlength, hnil] at hpos
      cases hpos
  | texture op channel operands ty => exact .texture op channel ty hlength

/-- The texts of the operands, as they are written nested and alone. -/
def AreTexts (texts : List (Bool → List Char)) : Prop :=
  ∀ text ∈ texts, Enclosed [' ', ',', ':'] (text true) ∧ Enclosed [',', ':'] (text false)

theorem AreTexts.alone (htexts : AreTexts texts) :
    ∀ text ∈ texts.map (fun text => text false), Enclosed [',', ':'] text := by
  intro text htext
  obtain ⟨operand, hoperand, rfl⟩ := List.mem_map.mp htext
  exact (htexts operand hoperand).2

theorem Phrased.legible (hphrased : node.Phrased program texts said)
    (hnames : program.NamesApart) (htexts : AreTexts texts) :
    said.Legible := by
  have hstops : [','] ⊆ [',', ':'] := by decide
  cases hphrased with
  | @«variable» id declared hdeclared =>
    exact .name
      (hnames.isWord declared (Array.mem_of_getElem? (Program.variableOf_eq_ok_iff.mp hdeclared)))
  | index base place baseText placeText =>
    exact .index (htexts baseText (by simp)).1 (htexts placeText (by simp)).2
  | swizzle value mask text =>
    refine .swizzle (htexts text (by simp)).1 mask.isWord_text fun hnil => mask.lanes_ne_nil ?_
    rwa [Swizzle.text, String.toList_ofList, List.map_eq_nil_iff] at hnil
  | operation hsymbol left right ty leftText rightText =>
    exact .operation (htexts leftText (by simp)).1 (Operator.isWord_symbol hsymbol)
      (htexts rightText (by simp)).1
  | @call op hsymbol operands ty texts hlength hne =>
    refine .call (op.isWord_name.enclosed (by decide)) op.exists_cons_name
      (fun text htext => ?_) (by simpa using hne)
    obtain ⟨operand, hoperand, rfl⟩ := List.mem_map.mp htext
    exact (htexts operand hoperand).2.mono hstops
  | @texture op channel operands ty texts hlength =>
    obtain ⟨char, rest, hname, hopen⟩ := op.exists_cons_name
    refine .call ((op.isWord_name.enclosed (by decide)).append (enclosed_channelText channel))
      ⟨char, rest ++ channelText channel, by rw [hname, List.cons_append], hopen⟩
        (fun text htext => ?_) ?_
    · rw [← List.map_uncurry_zip_eq_zipWith] at htext
      obtain ⟨⟨label, alone⟩, hpair, rfl⟩ := List.mem_map.mp htext
      obtain ⟨operand, hoperand, rfl⟩ := List.mem_map.mp (List.of_mem_zip hpair).2
      exact (TextureOperands.isLabel_of_mem_labels (List.of_mem_zip hpair).1).enclosed.append
        ((htexts operand hoperand).2.mono hstops)
    · intro hnil
      have hnone := congrArg List.length hnil
      rw [List.length_zipWith, List.length_map, operands.length_labels, hlength,
        Nat.min_self] at hnone
      exact absurd hnone (Nat.succ_ne_zero _)

/-- The node without the type that is recorded in it. -/
def untyped : Node → Node
  | .apply op operands _ => .apply op operands .void
  | .texture op channel operands _ => .texture op channel operands .void
  | node => node

/-- Texts in equal places, nested or alone, are the same. -/
def SameTexts (texts texts' : List (Bool → List Char)) : Prop :=
  List.Forall₂ (fun text text' => ∃ nested, text nested = text' nested) texts texts'

theorem sameTexts_of_map {texts texts' : List (Bool → List Char)}
    (hsame : texts.map (fun text => text false) = texts'.map fun text => text false) :
    SameTexts texts texts' := by
  have hrow :
      List.Forall₂ Eq (texts.map fun text => text false) (texts'.map fun text => text false) := by
    rwa [List.forall₂_eq_eq_eq]
  rw [List.forall₂_map_left_iff, List.forall₂_map_right_iff] at hrow
  exact hrow.imp fun text text' halone => ⟨false, halone⟩

/-- A phrase says what node it is of, up to ids and the recorded type, and what its operands are
written as. -/
theorem Phrased.alike (hphrased : node.Phrased program texts said)
    (hphrased' : node'.Phrased program texts' said)
    (hnames : program.NamesApart) (htexts : AreTexts texts) (htexts' : AreTexts texts') :
    node.untyped.Alike node'.untyped ∧ SameTexts texts texts' := by
  generalize hphrase : said = said' at hphrased'
  cases hphrased with
  | @«variable» id declared hdeclared =>
    cases hphrased' with
    | @«variable» id' declared' hdeclared' =>
      have hname : declared.name = declared'.name := String.toList_inj.mp (Phrase.name.inj hphrase)
      rw [hnames.eq_of_name hdeclared hdeclared' hname]
      exact ⟨.refl _, .nil⟩
    | _ => cases hphrase
  | index base place baseText placeText =>
    cases hphrased' with
    | index base' place' baseText' placeText' =>
      obtain ⟨hbase, hplace⟩ := Phrase.index.inj hphrase
      exact ⟨.index .., .cons ⟨true, hbase⟩ (.cons ⟨false, hplace⟩ .nil)⟩
    | _ => cases hphrase
  | swizzle value mask text =>
    cases hphrased' with
    | swizzle value' mask' text' =>
      obtain ⟨hvalue, hmask⟩ := Phrase.swizzle.inj hphrase
      rw [Swizzle.text_inj hmask]
      exact ⟨.swizzle .., .cons ⟨true, hvalue⟩ .nil⟩
    | _ => cases hphrase
  | operation hsymbol left right ty leftText rightText =>
    cases hphrased' with
    | operation hsymbol' left' right' ty' leftText' rightText' =>
      obtain ⟨hleft, hspelled, hright⟩ := Phrase.operation.inj hphrase
      obtain rfl := String.toList_inj.mp hspelled
      rw [Operator.symbol_inj hsymbol hsymbol']
      exact ⟨.apply _ _ _ _ rfl, .cons ⟨true, hleft⟩ (.cons ⟨true, hright⟩ .nil)⟩
    | _ => cases hphrase
  | @call op hsymbol operands ty texts hlength hne =>
    cases hphrased' with
    | @call op' hsymbol' operands' ty' texts' hlength' hne' =>
      obtain ⟨hname, hrow⟩ := Phrase.call.inj hphrase
      have hsame := sameTexts_of_map hrow
      rw [Operator.name_inj (String.toList_inj.mp hname)]
      exact ⟨.apply _ _ _ _ (hlength.symm.trans (hsame.length_eq.trans hlength')), hsame⟩
    | @texture op' channel' operands' ty' texts' hlength' =>
      exact absurd (Phrase.call.inj hphrase).1 (op'.name_ne_append_channelText op channel')
    | _ => cases hphrase
  | @texture op channel operands ty texts hlength =>
    cases hphrased' with
    | @call op' hsymbol' operands' ty' texts' hlength' hne' =>
      exact absurd (Phrase.call.inj hphrase).1.symm (op.name_ne_append_channelText op' channel)
    | @texture op' channel' operands' ty' texts' hlength' =>
      obtain ⟨hname, hrow⟩ := Phrase.call.inj hphrase
      obtain ⟨hop, rfl⟩ := append_channelText_inj op.isWord_name op'.isWord_name hname
      obtain ⟨hlabels, hsame⟩ := labels_inj (fun label => TextureOperands.isLabel_of_mem_labels)
        (fun label => TextureOperands.isLabel_of_mem_labels) htexts.alone htexts'.alone
        (by rw [operands.length_labels, List.length_map, hlength])
        (by rw [operands'.length_labels, List.length_map, hlength']) hrow
      rw [TextureOp.name_inj (String.toList_inj.mp hop)]
      exact ⟨.texture _ _ _ _ _ (TextureOperands.shape_of_labels hlabels), sameTexts_of_map hsame⟩
    | _ => cases hphrase

/-! ### Texts of nodes -/

theorem mapM_eq_ok_of_forall₂ {α β : Type}
    {step : α → Except Crash β} {items : List α} {answers : List β}
    (hsteps : List.Forall₂ (fun item answer => step item = .ok answer) items answers) :
    items.mapM step = .ok answers := by
  induction hsteps with
  | nil => rfl
  | cons hfirst _ ih => exact mapM_cons_eq_ok_iff.mpr ⟨_, _, hfirst, ih, rfl⟩

theorem mapM_labelled {write : NodeId → Except Crash String} {labelled : List (String × NodeId)}
    (hwrites : List.Forall₂ (fun pair text => write pair.2 = .ok (String.ofList (text false)))
      labelled texts) :
    (labelled.mapM fun (label, operand) => do return label ++ (← write operand)) = .ok (List.zipWith
        (fun label text => label ++ String.ofList (text false)) (labelled.map Prod.fst) texts) := by
  induction hwrites with
  | nil => rfl
  | cons hfirst _ ih =>
    exact mapM_cons_eq_ok_iff.mpr ⟨_, _, bind_eq_ok_iff.mpr ⟨_, hfirst, rfl⟩, ih, rfl⟩

/-- A node is written as its phrase is spelled if its operands are written as they are in the
phrase. -/
theorem Phrased.expressionWithin_eq (hphrased : node.Phrased program texts said) {id : NodeId}
    (hnode : program.node id = .ok node) {steps : Nat}
    (hoperands : List.Forall₂ (fun operand text =>
      ∀ nested, program.expressionWithin steps nested operand =
        .ok (String.ofList (text nested))) node.children texts)
    (nested : Bool) : program.expressionWithin (steps + 1) nested id =
      .ok (String.ofList (said.spelling nested)) := by
  refine bind_eq_ok_iff.mpr ⟨node, hnode, ?_⟩
  cases hphrased with
  | @«variable» id declared hdeclared =>
    refine bind_eq_ok_iff.mpr ⟨declared, hdeclared, congrArg Except.ok ?_⟩
    rw [Phrase.spelling, String.ofList_toList]
  | index base place baseText placeText =>
    obtain _ | ⟨hbase, _ | ⟨hplace, -⟩⟩ := hoperands
    refine bind_eq_ok_iff.mpr ⟨_, hbase true,
      bind_eq_ok_iff.mpr ⟨_, hplace false, congrArg Except.ok ?_⟩⟩
    exact String.toList_inj.mp (by simp [Phrase.spelling])
  | swizzle value mask text =>
    obtain _ | ⟨hvalue, -⟩ := hoperands
    refine bind_eq_ok_iff.mpr ⟨_, hvalue true, congrArg Except.ok ?_⟩
    exact String.toList_inj.mp (by simp [Phrase.spelling])
  | operation hsymbol left right ty leftText rightText =>
    obtain _ | ⟨hleft, _ | ⟨hright, -⟩⟩ := hoperands
    dsimp only
    rw [hsymbol]
    refine bind_eq_ok_iff.mpr
      ⟨_, hleft true, bind_eq_ok_iff.mpr ⟨_, hright true, congrArg Except.ok ?_⟩⟩
    cases nested <;> exact String.toList_inj.mp (by simp [Phrase.spelling])
  | @call op hsymbol operands ty texts hlength hne =>
    have hrow : operands.mapM (program.expressionWithin steps false) =
        .ok (texts.map fun text => String.ofList (text false)) := by
      refine mapM_eq_ok_of_forall₂ ?_
      rw [List.forall₂_map_right_iff]
      exact hoperands.imp fun _ _ hoperand => hoperand false
    dsimp only
    rw [hsymbol]
    refine bind_eq_ok_iff.mpr ⟨_, hrow, congrArg Except.ok ?_⟩
    exact String.toList_inj.mp (by
        simp [Phrase.spelling, String.toList_intercalate, Function.comp_def])
  | @texture op channel operands ty texts hlength =>
    rw [children, ← operands.labelled_map_snd, List.forall₂_map_left_iff] at hoperands
    have hrow := mapM_labelled (hoperands.imp fun _ _ hoperand => hoperand false)
    refine bind_eq_ok_iff.mpr ⟨_, hrow, congrArg Except.ok ?_⟩
    cases channel <;> exact String.toList_inj.mp (by
      simp [Phrase.spelling, channelText, String.toList_intercalate, List.map_zipWith,
        TextureOperands.labels, List.zipWith_map_right])

end Node

/-! ### Texts of expressions -/

namespace Tree

/-- Every node of an expression is legible. -/
def Legible (program : Program) (tree : Tree) : Prop :=
  ∀ below ∈ tree.subtrees, below.node.Legible program

/-- What an expression is written as, nested or alone. -/
def spelling (program : Program) : Tree → Bool → List Char :=
  fold fun node texts nested => (node.phrase program texts).spelling nested

/-- Trees that differ in ids and recorded types only. -/
inductive Alike : Tree → Tree → Prop
  | intro {tree tree' : Tree} (hnode : tree.node.untyped.Alike tree'.node.untyped)
    (hchildren : List.Forall₂ Alike tree.children tree'.children) : Alike tree tree'

variable {program : Program} {tree tree' : Tree}

theorem spelling_mk (program : Program) (id : NodeId) (node : Node) (children : List Tree)
    (nested : Bool) : spelling program ⟨id, node, children⟩ nested =
      (node.phrase program (children.map (spelling program))).spelling nested := by
  rw [spelling, fold_mk]

theorem Legible.child {child : Tree} (hlegible : tree.Legible program)
    (hchild : child ∈ tree.children) :
    child.Legible program :=
  fun below hbelow => hlegible below (mem_subtrees_of_mem_children hchild hbelow)

end Tree

namespace Program

variable {program : Program} {tree tree' : Tree}

theorem Draws.phrased (hdraws : program.Draws tree) (hlegible : tree.Legible program) :
    tree.node.Phrased program (tree.children.map (Tree.spelling program))
      (tree.node.phrase program (tree.children.map (Tree.spelling program))) := by
  refine (hlegible tree tree.mem_subtrees_self).phrased ?_
  rw [hdraws.children_eq, List.length_map, List.length_map]

/-- The text of an expression is enclosed wherever it stands. -/
theorem Draws.areTexts (hnames : program.NamesApart)
    (hdraws : program.Draws tree) (hlegible : tree.Legible program) :
    Node.AreTexts (tree.children.map (Tree.spelling program)) := by
  induction tree using Tree.induction with
  | step id node children ih =>
    intro text htext
    obtain ⟨child, hchild, rfl⟩ := List.mem_map.mp htext
    have hdrawn := hdraws.child hchild
    have htexts := ih child hchild hdrawn (hlegible.child hchild)
    have hphrase := (hdrawn.phrased (hlegible.child hchild)).legible hnames htexts
    obtain ⟨id, node, children⟩ := child
    simp only [Tree.spelling_mk]
    exact ⟨hphrase.enclosed_nested, hphrase.enclosed false⟩

theorem Draws.expressionWithin_eq (hdraws : program.Draws tree) (hlegible : tree.Legible program)
    {steps : Nat} (hheight : tree.height ≤ steps) (nested : Bool) :
    program.expressionWithin steps nested tree.id =
      .ok (String.ofList (tree.spelling program nested)) := by
  induction steps generalizing tree nested with
  | zero => exact absurd tree.height_pos (by omega)
  | succ steps ih =>
    have hphrased := hdraws.phrased hlegible
    have hids := hdraws.children_eq
    obtain ⟨id, node, children⟩ := tree
    rw [Tree.spelling_mk]
    refine hphrased.expressionWithin_eq hdraws.node_eq ?_ nested
    rw [hids, List.forall₂_map_left_iff, List.forall₂_map_right_iff, List.forall₂_same]
    exact fun child hchild nested => ih (hdraws.child hchild) (hlegible.child hchild)
      (Tree.height_mk_le_iff.mp hheight child hchild) nested

/-- Every legible expression has a text. -/
theorem Draws.nodeText_eq (hdraws : program.Draws tree) (hlegible : tree.Legible program) :
    program.nodeText tree.id = .ok (String.ofList (tree.spelling program false)) := by
  refine bind_eq_ok_iff.mpr ⟨tree.node, hdraws.node_eq, ?_⟩
  rw [(hlegible tree tree.mem_subtrees_self).isStatement_eq]
  exact hdraws.expressionWithin_eq hlegible (hdraws.height_le_size.trans (Nat.le_succ _)) false

/-- Expressions that are written in the same way in one place are the same up to ids and types. -/
theorem Draws.alike_of_spelling (hnames : program.NamesApart) (hdraws : program.Draws tree)
    (hdraws' : program.Draws tree') (hlegible : tree.Legible program)
    (hlegible' : tree'.Legible program) {nested : Bool}
    (hsame : tree.spelling program nested = tree'.spelling program nested) : tree.Alike tree' := by
  induction tree using Tree.induction generalizing tree' nested with
  | step id node children ih =>
    have hphrased := hdraws.phrased hlegible
    have hphrased' := hdraws'.phrased hlegible'
    have htexts := hdraws.areTexts hnames hlegible
    have htexts' := hdraws'.areTexts hnames hlegible'
    have hphrase := Phrase.eq_of_spelling_eq (hphrased.legible hnames htexts)
      (hphrased'.legible hnames htexts') (by
        obtain ⟨id', node', children'⟩ := tree'
        rwa [Tree.spelling_mk, Tree.spelling_mk] at hsame)
    rw [← hphrase] at hphrased'
    obtain ⟨hnode, hoperands⟩ := hphrased.alike hphrased' hnames htexts htexts'
    refine .intro hnode ?_
    rw [Node.SameTexts, List.forall₂_map_left_iff, List.forall₂_map_right_iff, List.forall₂_iff_zip]
      at hoperands
    refine List.forall₂_iff_zip.mpr ⟨hoperands.1, fun {child child'} hpair => ?_⟩
    obtain ⟨hchild, hchild'⟩ := List.of_mem_zip hpair
    obtain ⟨nested, hwritten⟩ := hoperands.2 hpair
    exact ih child hchild (hdraws.child hchild) (hdraws'.child hchild') (hlegible.child hchild)
      (hlegible'.child hchild') hwritten

/-- The text of an expression can be read in one way only, up to ids and the types of operations. -/
theorem alike_of_nodeText_eq (hnames : program.NamesApart) {left right : Tree}
    (hleft : program.Draws left) (hright : program.Draws right)
    (hlegible : left.Legible program) (hlegible' : right.Legible program)
    (hsame : program.nodeText left.id = program.nodeText right.id) : left.Alike right := by
  rw [hleft.nodeText_eq hlegible, hright.nodeText_eq hlegible'] at hsame
  exact hleft.alike_of_spelling hnames hright hlegible hlegible'
    (String.ofList_injective (Except.ok.inj hsame))

/-- The mask `zx`. -/
def crossedMask : Swizzle := ⟨[⟨2, by decide⟩, ⟨0, by decide⟩], by decide, by decide⟩

/-- The lanes `zx` of a sum of two variables, in four nodes from an id on. -/
def lanesOfSum (first : Nat) (ty : Ty) : Tree :=
  ⟨⟨first + 3⟩, .swizzle ⟨first + 2⟩ crossedMask,
    [⟨⟨first + 2⟩, .apply .add [⟨first⟩, ⟨first + 1⟩] ty,
    [⟨⟨first⟩, .variable ⟨0⟩, []⟩, ⟨⟨first + 1⟩, .variable ⟨1⟩, []⟩]⟩]⟩

/-- The lanes `zx` of one sum, twice, with two types recorded for the sum. -/
def sumTwice : Program where
  nodes := #[.variable ⟨0⟩, .variable ⟨1⟩, .apply .add [⟨0⟩, ⟨1⟩] .vec4, .swizzle ⟨2⟩ crossedMask,
    .variable ⟨0⟩, .variable ⟨1⟩, .apply .add [⟨4⟩, ⟨5⟩] .float, .swizzle ⟨6⟩ crossedMask]
  vars := #[⟨"light", .vec4, .input⟩, ⟨"shade_2", .vec4, .input⟩]

theorem alike_of_nodeText_eq_sumTwice :
    sumTwice.nodeText ⟨3⟩ = .ok "(light + shade_2).zx" ∧
    sumTwice.nodeText ⟨7⟩ = .ok "(light + shade_2).zx" ∧
    (lanesOfSum 0 .vec4).Alike (lanesOfSum 4 .float) := by
  have hnames : sumTwice.NamesApart := by
    refine ⟨fun declared hdeclared => ?_, by decide⟩
    simp only [sumTwice, List.mem_toArray, List.mem_cons, List.not_mem_nil, or_false] at hdeclared
    rcases hdeclared with rfl | rfl <;> decide
  have hdraws : sumTwice.Draws (lanesOfSum 0 .vec4) ∧ sumTwice.Draws (lanesOfSum 4 .float) := by
    constructor <;>
    · refine .intro rfl rfl fun child hchild => ?_
      obtain rfl := List.mem_singleton.mp hchild
      refine .intro rfl rfl fun operand hoperand => ?_
      simp only [List.mem_cons, List.not_mem_nil, or_false] at hoperand
      rcases hoperand with rfl | rfl <;> exact .intro rfl rfl (by simp)
  have hlegible (first : Nat) (ty : Ty) : (lanesOfSum first ty).Legible sumTwice := by
    simp only [Tree.Legible, lanesOfSum, Tree.forall_subtrees_mk, List.forall_mem_cons]
    refine ⟨.swizzle _ _,
      ⟨.apply _ rfl, ⟨.variable rfl, by simp⟩, ⟨.variable rfl, by simp⟩, by simp⟩, by simp⟩
  have htext : sumTwice.nodeText ⟨3⟩ = .ok "(light + shade_2).zx" := rfl
  have htext' : sumTwice.nodeText ⟨7⟩ = .ok "(light + shade_2).zx" := rfl
  exact ⟨htext, htext', alike_of_nodeText_eq hnames hdraws.1 hdraws.2 (hlegible _ _) (hlegible _ _)
    (htext.trans htext'.symm)⟩

end Program

end ShaderIR
