import MplWorkbench.Proofs.Label.Resolution

/-! What a name refers to among several texts.

The text that the caret is in decides first: its last label of that name at or
before the caret is the only one found. Walking back and listing labels meet the
same ones, so if there is none, all labels of that name in this text begin behind
the name at the caret (`Grown.stop_le_start_of_lt`), and they are found with those
of the other texts, in the order of the texts.

`exists_sought`: what is found for the caret in any texts, of which several may have
the same number. -/
namespace MplWorkbench

/-! ### Labels of several texts -/

/-- A numbered text that has been parsed, with its labels. -/
structure Listing where
  file : FileId
  parse : Parse
  labels : List Label
  labels_eq : parse.labels = .ok labels

namespace Listing

def ofText (file : FileId) (text : String) (o : Options) : Listing :=
  ⟨file, MplWorkbench.parse text o, _, labels_parse text o⟩

/-- The text as it is searched. -/
def searched (x : Listing) : FileId × Parse := (x.file, x.parse)

/-- The labels called `name`, in order. -/
def declaring (x : Listing) (name : String) : List FileDefinition :=
  (x.labels.filter (·.name == name)).map fun l => ⟨x.file, l.definition⟩

end Listing

/-- The definitions of a name in all texts are those of one text after the other. -/
theorem definitionsIn_eq (xs : List Listing) (name : String) :
    definitionsIn (xs.map (·.searched)) name = .ok (xs.flatMap (·.declaring name)) := by
  have hfile (x : Listing) : (do return (← x.parse.definitions name).map (⟨x.file, ·⟩)) =
      (.ok (x.declaring name) : Except NotASlice (List FileDefinition)) := by
    rw [Parse.definitions, x.labels_eq]
    exact congrArg Except.ok List.map_map
  have hfiles : ((xs.map (·.searched)).mapM fun x => do
      return (← x.2.definitions name).map (FileDefinition.mk x.1)) =
        .ok (xs.map (·.declaring name)) := by
    rw [List.mapM_map]
    exact mapM_eq_ok fun x _ => hfile x
  show ((xs.map (·.searched)).mapM _ >>= fun found => pure found.flatten) = _
  rw [hfiles]
  exact congrArg Except.ok List.flatMap_def.symm

theorem lookup_searched (xs : List Listing) (file : FileId) :
    (xs.map (·.searched)).lookup file = (xs.find? (·.file == file)).map (·.parse) := by
  induction xs with
  | nil => rfl
  | cons x xs ih =>
    rw [List.map_cons, Listing.searched, List.lookup_cons, List.find?_cons, ih, BEq.comm]
    cases x.file == file <;> rfl

/-- No text declares the name if there is nothing to find. -/
theorem flatMap_declaring_eq_nil_iff {xs : List Listing} {name : String} :
    xs.flatMap (·.declaring name) = [] ↔ ∀ x ∈ xs, ∀ l ∈ x.labels, l.name ≠ name := by
  simp [Listing.declaring, List.flatMap_eq_nil_iff, List.filter_eq_nil_iff]

/-! ### Behind a name -/

namespace Tree.Grown

variable {t : Tree} {text : String} {f : Forest} {stop : Position} {id m n : Nat}
  (h : t.Grown text f stop)
include h

/-- A terminal that begins behind where another begins lies behind all of it. -/
theorem stop_le_start_of_lt (hm : m ∈ t.tokens) (hn : n ∈ t.tokens) (hlt : t.start m < t.start n) :
    t.stop m ≤ t.start n := by
  obtain ⟨hm, hmsize⟩ := h.mem_tokens_iff.1 hm
  obtain ⟨hn, hnsize⟩ := h.mem_tokens_iff.1 hn
  rcases Nat.lt_trichotomy m n with hmn | rfl | hnm
  · exact h.stop_le_start hm hmn hnsize
  · exact absurd hlt (Nat.lt_irrefl _)
  · have hle := Nat.le_trans (h.between (h.pos_of_isTerminal hn) hnsize).1
      (h.stop_le_start hn hnm hmsize)
    exact absurd hlt (Nat.not_lt_of_le hle)

/-- A walk back finds a label of that name that begins no later, or all of them are behind. -/
theorem declaredBefore?_cases (htext : ∀ id < t.size, ∃ w, t.textOf id = .ok w)
    (hid : id ∈ t.tokens) (hkind : t.kind id ≠ .eof) (bare : String) {ls : List Label}
    (hls : ls = t.labelNames.map fun (id, name) => t.labelAt id name) :
    (∃ l ∈ ls, t.declaredBefore? id bare = .ok (some l.definition) ∧ l.name = bare ∧
        l.nameSpan.start ≤ t.start id) ∨
      t.declaredBefore? id bare = .ok none ∧
        ∀ l ∈ ls, l.name = bare → t.stop id ≤ l.nameSpan.start := by
  rw [h.declaredBefore?_eq htext hid hkind, ← hls]
  cases hlast : (ls.filter fun l => l.name == bare && l.nameSpan.start ≤ t.start id).getLast? with
  | some l =>
    obtain ⟨hl, hfits⟩ := List.mem_filter.1 (List.mem_of_getLast? hlast)
    obtain ⟨hname, hle⟩ := Bool.and_eq_true_iff.1 hfits
    exact .inl ⟨l, hl, rfl, eq_of_beq hname, of_decide_eq_true hle⟩
  | none =>
    refine .inr ⟨rfl, fun l hl hname => ?_⟩
    have hnone := List.filter_eq_nil_iff.1 (List.getLast?_eq_none_iff.1 hlast) l hl
    rw [hname, beq_self_eq_true, Bool.true_and, decide_eq_true_iff] at hnone
    obtain ⟨names, hnames, rfl⟩ := List.mem_map.1 (hls ▸ hl)
    exact h.stop_le_start_of_lt hid (h.mem_tokens_of_labelName? (labelName?_of_mem hnames))
      (Nat.lt_of_not_le hnone)

end Tree.Grown

/-! ### The name at a caret -/

/-- The first name that the caret touches, called `bare` without its access mark. -/
structure Parse.Names (p : Parse) (offset : Nat) (id : NodeId) (bare : String) : Prop where
  found : p.tree.tokens.find? (p.tree.touches offset) = some id
  textOf_eq : p.tree.textOf id = .ok (.ofList (Lexeme.accessMark (p.tree.kind id)) ++ bare)

/-- What a name refers to when only its own text is looked at. -/
theorem Parse.definitionAt?_eq {p : Parse} {offset : Nat} {id : NodeId} {bare : String}
    (hname : p.nameAt? offset = some id) (hbare : p.tree.bareName id = .ok bare) :
    p.definitionAt? offset = p.tree.declaredBefore? id bare := by
  rw [definitionAt?, hname]
  show (do p.tree.declaredBefore? id (← p.tree.bareName id)) = _
  rw [hbare]
  rfl

/-- Only where its own text has no such label, a name is looked up in all texts. -/
theorem definitionsAt_of_lookup {files : List (FileId × Parse)} {file : FileId} {p : Parse} {offset : Nat}
    {id : NodeId} {bare : String} (hfile : files.lookup file = some p)
    (hname : p.nameAt? offset = some id) (hbare : p.tree.bareName id = .ok bare) :
    definitionsAt files file offset = (do
      match ← p.tree.declaredBefore? id bare with
      | some d => return [⟨file, d⟩]
      | none => definitionsIn files bare) := by
  rw [definitionsAt, hfile]
  dsimp only
  rw [hname]
  dsimp only
  rw [hbare]
  rfl

/-- What is found for the name at a caret, if the caret is in the first of the texts numbered
`file`. -/
inductive Sought (xs : List Listing) (file : FileId) (offset : Nat) : List FileDefinition → Prop
  /-- There is no such text. -/
  | elsewhere : (∀ x ∈ xs, x.file ≠ file) → Sought xs file offset []
  | nameless {x : Listing} : xs.find? (·.file == file) = some x →
      (∀ id ∈ x.parse.tree.tokens, ¬ x.parse.tree.touches offset id) → Sought xs file offset []
  /-- A label of the text itself, at or before the name, hides all others. -/
  | here {x : Listing} {id : NodeId} {bare : String} {l : Label} :
      xs.find? (·.file == file) = some x → x.parse.Names offset id bare →
      x.parse.definitionAt? offset = .ok (some l.definition) →
      l ∈ x.labels → l.name = bare → l.nameSpan.start ≤ x.parse.tree.start id →
      Sought xs file offset [⟨file, l.definition⟩]
  /-- What the text itself declares is then behind the name. -/
  | everywhere {x : Listing} {id : NodeId} {bare : String} :
      xs.find? (·.file == file) = some x → x.parse.Names offset id bare →
      x.parse.definitionAt? offset = .ok none →
      (∀ d ∈ x.declaring bare, x.parse.tree.stop id ≤ d.definition.span.start) →
      (xs.flatMap (·.declaring bare) = [] ↔ ∀ y ∈ xs, ∀ l ∈ y.labels, l.name ≠ bare) →
      Sought xs file offset (xs.flatMap (·.declaring bare))

section Text

variable {text : String} {o : Options} {offset : Nat} {id : NodeId}

theorem isName_of_nameAt? (hname : (parse text o).nameAt? offset = some id) :
    id ∈ (parse text o).tree.tokens ∧ ((parse text o).tree.kind id).isName := by
  obtain ⟨f, stop, h, -⟩ := Reading.exists_grown text o
  have hfound := (h.nameAt? offset).symm.trans hname
  have htouch := List.find?_some hfound
  exact ⟨List.mem_of_find?_eq_some hfound,
    (Bool.and_eq_true_iff.1 (Bool.and_eq_true_iff.1 htouch).1).1⟩

theorem exists_names (hname : (parse text o).nameAt? offset = some id) : ∃ bare,
    (parse text o).Names offset id bare ∧ (parse text o).tree.bareName id = .ok bare := by
  obtain ⟨f, stop, h, -⟩ := Reading.exists_grown text o
  obtain ⟨hid, hisName⟩ := isName_of_nameAt? hname
  have hkind : (parse text o).tree.kind id ≠ .someError := by
    intro heq
    rw [heq] at hisName
    contradiction
  obtain ⟨w, -, -, -, -, -, -, htext, hbefits, -⟩ := exists_takes hid hkind
  obtain ⟨bare, rfl⟩ := hbefits.exists_bare
  refine ⟨.ofList bare, ⟨(h.nameAt? offset).symm.trans hname, ?_⟩, Tree.bareName_of_textOf htext⟩
  rw [htext, String.ofList_append]

/-- What is found where the first text of that number is known. -/
theorem exists_sought_of_first {xs : List Listing} {file n : FileId} (offset : Nat)
    (hfirst : xs.find? (·.file == file) = some (.ofText n text o)) :
    ∃ found, definitionsAt (xs.map (·.searched)) file offset = .ok found ∧
      Sought xs file offset found := by
  obtain ⟨f, stop, h, -⟩ := Reading.exists_grown text o
  have hlookup : (xs.map (·.searched)).lookup file = some (parse text o) := by
    rw [lookup_searched, hfirst]
    rfl
  cases hname : (parse text o).nameAt? offset with
  | none =>
    refine ⟨[], ?_, .nameless hfirst ?_⟩
    · rw [definitionsAt, hlookup]
      dsimp only
      rw [hname]
      rfl
    · exact List.find?_eq_none.1 ((h.nameAt? offset).symm.trans hname)
  | some id =>
    obtain ⟨hid, hisName⟩ := isName_of_nameAt? hname
    obtain ⟨bare, hnames, hbare⟩ := exists_names hname
    have hkind : (parse text o).tree.kind id ≠ .eof := by
      intro heq
      rw [heq] at hisName
      contradiction
    have hdefinition := Parse.definitionAt?_eq hname hbare
    rw [definitionsAt_of_lookup hlookup hname hbare]
    rcases h.declaredBefore?_cases (fun _ => exists_textOf_parse text o) hid hkind bare rfl with
      ⟨l, hl, hfound, hcalled, hle⟩ | ⟨hnone, hbehind⟩
    · rw [hfound] at hdefinition ⊢
      exact ⟨_, rfl, .here hfirst hnames hdefinition hl hcalled hle⟩
    · rw [hnone] at hdefinition ⊢
      refine ⟨_, definitionsIn_eq xs bare, .everywhere hfirst hnames hdefinition ?_
        flatMap_declaring_eq_nil_iff⟩
      intro d hd
      obtain ⟨l, hl, rfl⟩ := List.mem_map.1 hd
      obtain ⟨hl, hcalled⟩ := List.mem_filter.1 hl
      exact hbehind l hl (eq_of_beq hcalled)

end Text

/-- What is found for any caret in any texts. -/
theorem exists_sought (texts : List (FileId × String × Options)) (file : FileId) (offset : Nat) :
    ∃ found,
      definitionsAt (texts.map fun (n, text, o) => (n, parse text o)) file offset = .ok found ∧
      Sought (texts.map fun (n, text, o) => .ofText n text o) file offset found := by
  let xs : List Listing := texts.map fun (n, text, o) => .ofText n text o
  have hfiles : (texts.map fun (n, text, o) => (n, parse text o)) = xs.map (·.searched) := by
    rw [List.map_map]
    rfl
  rw [hfiles]
  cases hfirst : xs.find? (·.file == file) with
  | none =>
    refine ⟨[], ?_, .elsewhere fun x hx => ?_⟩
    · rw [definitionsAt, lookup_searched, hfirst]
      rfl
    · exact ne_of_beq_false (Bool.eq_false_iff.2 (List.find?_eq_none.1 hfirst x hx))
  | some x =>
    obtain ⟨⟨n, text, o⟩, -, rfl⟩ := List.mem_map.1 (List.mem_of_find?_eq_some hfirst)
    exact exists_sought_of_first offset hfirst

-- the second text has no such label, so the first and, behind the name, the second are searched
example : (definitionsAt [(0, parse "a: 1;" default), (7, parse "a a: 2" default)] 7 0).toOption =
    some [⟨0, ⟨"a", ⟨0, 1⟩, 0, 0⟩⟩, ⟨7, ⟨"a", ⟨2, 3⟩, 0, 2⟩⟩] := by
  decide +kernel

end MplWorkbench
