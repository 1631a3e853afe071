import MplWorkbench.Defect
import MplWorkbench.Label
import MplWorkbench.Lexeme.Quotation
import MplWorkbench.Proofs.Tree.Forest

/-! The defects that show in a tree.

Most defects of a text can be seen in its tree, without reading the text again:
error terminals, lone carriage returns, scopes that nothing closes, members
without a name. Those inside a string can be seen in its text. `Tree.blemishes`
lists what shows at a node, with the span of the diagnostic that is due.

`Planted.blemishes_eq`: the blemishes of a tree are those of its forest. -/
namespace MplWorkbench

/-- A place where a diagnostic is due. -/
structure Blemish where
  /-- The kind that the diagnostic names, where the tree says which. -/
  token : Option Kind
  span : Span
deriving DecidableEq

namespace Blemish

/-- The diagnostic may be that of the blemish. -/
def Fits (b : Blemish) (d : Diagnostic) : Prop :=
  d.span = b.span ∧ ∀ kind, b.token = some kind → d.token = kind

/-- The diagnostics are those of the blemishes, one for each, in any order. -/
def Matches (bs : List Blemish) (ds : List Diagnostic) : Prop :=
  ∃ pairs : List (Blemish × Diagnostic), (pairs.map Prod.fst).Perm bs ∧
    (pairs.map Prod.snd).Perm ds ∧ ∀ p ∈ pairs, p.1.Fits p.2

variable {b : Blemish} {d : Diagnostic} {bs bs' : List Blemish} {ds ds' : List Diagnostic}

theorem Matches.nil : Matches [] [] := ⟨[], .nil, .nil, by simp⟩

theorem Matches.single (h : b.Fits d) : Matches [b] [d] :=
  ⟨[(b, d)], .refl _, .refl _, by simpa using h⟩

theorem Matches.append (h : Matches bs ds) (h' : Matches bs' ds') :
    Matches (bs ++ bs') (ds ++ ds') := by
  obtain ⟨ps, hbs, hds, hfits⟩ := h
  obtain ⟨ps', hbs', hds', hfits'⟩ := h'
  refine ⟨ps ++ ps', ?_, ?_, fun p hp => (List.mem_append.1 hp).elim (hfits p) (hfits' p)⟩
  · rw [List.map_append]
    exact hbs.append hbs'
  · rw [List.map_append]
    exact hds.append hds'

theorem Matches.of_perm (h : Matches bs ds) (hperm : bs.Perm bs') : Matches bs' ds := by
  obtain ⟨ps, hbs, hds, hfits⟩ := h
  exact ⟨ps, hbs.trans hperm, hds, hfits⟩

theorem Matches.eq_nil_iff (h : Matches bs ds) : ds = [] ↔ bs = [] := by
  obtain ⟨ps, hbs, hds, -⟩ := h
  have hlength : ds.length = bs.length := by
    rw [← hbs.length_eq, ← hds.length_eq, List.length_map, List.length_map]
  rw [← List.length_eq_zero_iff, hlength, List.length_eq_zero_iff]

theorem Matches.exists_of_mem (h : Matches bs ds) (hd : d ∈ ds) : ∃ b ∈ bs, b.Fits d := by
  obtain ⟨ps, hbs, hds, hfits⟩ := h
  obtain ⟨p, hp, rfl⟩ := List.mem_map.1 (hds.mem_iff.2 hd)
  exact ⟨p.1, hbs.mem_iff.1 (List.mem_map_of_mem hp), hfits p hp⟩

end Blemish

/-! ### Strings -/

/-- The carriage returns of a text that begins at the offset, those before a line feed aside. -/
def loneReturns (offset : Nat) : List Char → List Blemish
  | [] => []
  | x :: xs =>
    (if x = '\r' ∧ xs.head? ≠ some '\n' then [⟨some .cr, ⟨offset, offset + 1⟩⟩] else []) ++
      loneReturns (offset + x.utf8Size) xs

/-- A backslash escapes the character after it, unless it is escaped itself. -/
def isEscaping (escaped : Bool) (x : Char) : Bool := x == '\\' && !escaped

/-- What is wrong with the escape of `next` by the backslash at the offset. -/
def escapeBlemishes (offset : Nat) (next : Option Char) : List Blemish :=
  match next with
  | none => []
  | some x =>
    if Lexeme.isEscape x then []
    else if isBreak x then [⟨some .string, ⟨offset, offset + 1⟩⟩]
    else [⟨some .string, ⟨offset, offset + 1 + x.utf8Size⟩⟩]

/-- The escapes that make no sense; `escaped` tells of the first character. -/
def badEscapes (escaped : Bool) (offset : Nat) : List Char → List Blemish
  | [] => []
  | x :: xs =>
    (if isEscaping escaped x then escapeBlemishes offset xs.head? else []) ++
      badEscapes (isEscaping escaped x) (offset + x.utf8Size) xs

/-- Is there a quote that is not escaped? -/
def hasQuote (escaped : Bool) : List Char → Bool
  | [] => false
  | x :: xs => (x == '"' && !escaped) || hasQuote (isEscaping escaped x) xs

/-- What is wrong with a string that begins at the offset: its lone carriage returns, in a quoted
string its escapes, and that it has no end. -/
def stringBlemishes (start : Nat) (word : List Char) : List Blemish :=
  let unterminated : Blemish := ⟨some .string, .empty start⟩
  loneReturns start word ++
    match word with
    | '"' :: inside =>
      badEscapes false (start + 1) inside ++ if hasQuote false inside then [] else [unterminated]
    | _ => if word.count '«' = word.count '»' then [] else [unterminated]

/-! ### Nodes -/

namespace Tree

/-- The characters of a node; none if its span is no slice of the text. -/
def word (t : Tree) (id : NodeId) : List Char :=
  match t.textOf id with
  | .ok text => text.toList
  | .error _ => []

/-- The defects that show at a node. -/
def blemishes (t : Tree) (id : NodeId) : List Blemish :=
  if t.isTerminal id then
    match t.kind id with
    | .someError => [⟨none, t.span id⟩]
    | .cr => [⟨some .cr, t.span id⟩]
    | .nameMember | .nameReadMember | .nameWriteMember =>
      if (t.bareName id).toOption = some "" then [⟨some .name, .empty (t.stop id)⟩] else []
    | .string => stringBlemishes (t.start id) (t.word id)
    | _ => []
  else if t.isUnclosed id then
    [⟨some (if t.isReset id then .labelReset else t.kind id), .empty (t.start id)⟩]
  else []

end Tree

namespace Forest

/-- The part of a name after its access marks. -/
def bare (kind : Kind) (word : List Char) : List Char :=
  match splitAt? word kind.sigilSize with
  | some (_, bare) => bare
  | none => word

/-- The defects that show at a terminal with this text. -/
def terminalBlemishes (kind : Kind) (span : Span) (word : Option (List Char)) : List Blemish :=
  match kind with
  | .someError => [⟨none, span⟩]
  | .cr => [⟨some .cr, span⟩]
  | .nameMember | .nameReadMember | .nameWriteMember =>
    if word.map (bare kind) = some [] then [⟨some .name, .empty span.stop⟩] else []
  | .string => stringBlemishes span.start (word.getD [])
  | _ => []

/-- Terminals at which no defect ever shows. -/
def isSpotless : Kind → Bool
  | .someError | .cr | .nameMember | .nameReadMember | .nameWriteMember | .string => false
  | _ => true

theorem terminalBlemishes_of_isSpotless {kind : Kind} (h : isSpotless kind) (span : Span)
    (word : Option (List Char)) : terminalBlemishes kind span word = [] := by
  cases kind <;> first | rfl | contradiction

/-- The defect that shows at a scope: nothing closes it. -/
def scopeBlemishes (kind : Kind) (start : Nat) (inside : Forest) : List Blemish :=
  if kind.isScope && !inside.kinds.getLast?.any Kind.closesScope then
    [⟨some (scopeKind kind inside), .empty start⟩]
  else []

/-- The defects that show at the nodes, in order. -/
def blemishes (text : List Char) : Forest → List Blemish
  | nil => []
  | leaf kind start stop next =>
    terminalBlemishes kind ⟨start.offset, stop⟩ (slice? text ⟨start.offset, stop⟩) ++
      next.blemishes text
  | branch kind start _ inside next =>
    scopeBlemishes kind start.offset inside ++ inside.blemishes text ++ next.blemishes text

theorem blemishes_append (text : List Char) (f g : Forest) :
    (f ++ g).blemishes text = f.blemishes text ++ g.blemishes text := by
  induction f with
  | nil => rfl
  | leaf _ _ _ _ ih => simp only [leaf_append, blemishes, ih, List.append_assoc]
  | branch _ _ _ _ _ _ ih => simp only [branch_append, blemishes, ih, List.append_assoc]

end Forest

namespace Tree

variable {t : Tree} {text : String} {f : Forest} {parent : Option NodeId} {base : Nat}

theorem textOf_eq (t : Tree) (id : NodeId) :
    t.textOf id = match slice? t.text.toList (t.span id) with
      | some w => .ok (.ofList w)
      | none => .error ⟨t.span id⟩ := by
  rw [textOf, sliceOf?_eq]
  cases slice? t.text.toList (t.span id) <;> rfl

theorem word_eq (t : Tree) (id : NodeId) :
    t.word id = (slice? t.text.toList (t.span id)).getD [] := by
  rw [word, textOf_eq]
  cases slice? t.text.toList (t.span id) with
  | none => rfl
  | some w => exact String.toList_ofList

theorem toOption_bareName (t : Tree) (id : NodeId) : (t.bareName id).toOption =
    (slice? t.text.toList (t.span id)).map fun w => .ofList (Forest.bare (t.kind id) w) := by
  rw [bareName, textOf_eq]
  cases slice? t.text.toList (t.span id) with
  | none => rfl
  | some w =>
    show (match splitAt? (String.ofList w).toList (t.kind id).sigilSize with
      | some (_, bare) => Except.ok (String.ofList bare)
      | none => Except.ok (String.ofList w) : Except NotASlice String).toOption = _
    rw [String.toList_ofList, Option.map_some, Forest.bare]
    cases splitAt? w (t.kind id).sigilSize <;> rfl

theorem bareName_eq_empty_iff (t : Tree) (id : NodeId) : (t.bareName id).toOption = some "" ↔
    (slice? t.text.toList (t.span id)).map (Forest.bare (t.kind id)) = some [] := by
  rw [toOption_bareName]
  cases slice? t.text.toList (t.span id) with
  | none => simp
  | some w => simp [String.ofList_eq_empty_iff]

/-- The blemishes of a terminal are told by its kind, its span and its text. -/
theorem blemishes_of_isTerminal {id : NodeId} (h : t.isTerminal id) : t.blemishes id =
    Forest.terminalBlemishes (t.kind id) (t.span id) (slice? t.text.toList (t.span id)) := by
  unfold blemishes Forest.terminalBlemishes
  simp only [if_pos h, bareName_eq_empty_iff, word_eq]
  rfl

/-- The blemishes of a scope are told by its children. -/
theorem blemishes_of_branch {kind : Kind} {start : Position} {stop : Nat} {inside : Forest}
    (hnode : t.node base = .of kind start stop parent (some (inside.roots (base + 1))))
    (hinside : t.Bears (some base) (base + 1) inside) :
    t.blemishes base = Forest.scopeBlemishes kind start.offset inside := by
  have hterminal : ¬ t.isTerminal base = true := by
    rw [isTerminal, hnode]
    exact Bool.false_ne_true
  have hkind : t.kind base = kind := by rw [Tree.kind, hnode]; rfl
  have hstart : t.start base = start.offset := by rw [Tree.start, span, hnode]; rfl
  have hchildren : (t.children base).toList = inside.roots (base + 1) := by
    rw [children, hnode]
    rfl
  have hkinds : (t.children base).toList.map t.kind = inside.kinds := by
    rw [hchildren]
    exact hinside.kinds
  have hsecond : ((t.children base)[1]?.any fun c => t.kind c == .colonBang) =
      (inside.kinds[1]? == some .colonBang) := by
    rw [← hkinds, List.getElem?_map, Array.getElem?_toList]
    cases (t.children base)[1]? <;> rfl
  have hunclosed : t.isUnclosed base = Forest.isUnclosed kind inside :=
    isUnclosed_of_branch hnode hinside
  have hreset :
      (if t.isReset base then Kind.labelReset else kind) = Forest.scopeKind kind inside := by
    rw [isReset, isLabel, hsecond, hkind, Forest.scopeKind]
    simp only [Bool.and_eq_true, beq_iff_eq]
  rw [blemishes, if_neg hterminal, Forest.scopeBlemishes, hunclosed, Forest.isUnclosed, hkind,
    hstart, hreset]

theorem Bears.blemishes (h : t.Bears parent base f) :
    (List.range' base f.size).flatMap t.blemishes = f.blemishes t.text.toList := by
  induction f generalizing parent base with
  | nil => rfl
  | leaf kind start stop next ih =>
    obtain ⟨hnode, hnext⟩ := h
    have hleaf : t.isTerminal base = true := by rw [isTerminal, hnode]; rfl
    rw [Forest.size, List.range'_succ, List.flatMap_cons, ih hnext, blemishes_of_isTerminal hleaf,
      Tree.kind, span, hnode]
    rfl
  | branch kind start stop inside next ihi ihn =>
    obtain ⟨hnode, hinside, hnext⟩ := h
    rw [Forest.size, List.range'_succ, List.flatMap_cons, ← List.range'_append_1,
      List.flatMap_append, ihi hinside, ihn hnext, blemishes_of_branch hnode hinside,
      ← List.append_assoc]
    rfl

/-- The blemishes of a tree are those of its forest. -/
theorem Planted.blemishes_eq (h : t.Planted text f) :
    t.symbols.flatMap t.blemishes = f.blemishes text.toList := by
  obtain ⟨-, hinside, -⟩ := h.bears
  rw [h.symbols_eq, ← h.text_eq]
  exact hinside.blemishes

end Tree

end MplWorkbench
