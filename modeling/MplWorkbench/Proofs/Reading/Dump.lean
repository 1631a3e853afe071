import MplWorkbench.Proofs.Reading.Layout
import MplWorkbench.Proofs.Reading.Totality
import MplWorkbench.Proofs.Tree.Dump
import MplWorkbench.Proofs.Tree.Enumeration

/-! Dumps are faithful.

Every text has a dump, and no line of its diagnostics can be taken for one of its
tree: they follow hyphens, which no node begins with. So texts that are dumped
alike have the same tree. What the dump does not show is what lies between the
terminals, and there only spaces and tabs are found.

`alike_of_dump_eq`: parses with one dump have one tree, and texts that differ only
in which of the bytes between terminals are spaces and which tabs. -/
namespace MplWorkbench

/-- The trees are the same, but for the lines and columns of nodes, and so are the texts, but for
the spaces and tabs between terminals. -/
structure Tree.Alike (x y : String) (t u : Tree) : Prop where
  size_eq : t.size = u.size
  kind_eq : ∀ id, t.kind id = u.kind id
  span_eq : ∀ id, t.span id = u.span id
  parent_eq : ∀ id, t.parent? id = u.parent? id
  children_eq : ∀ id, t.children id = u.children id
  isTerminal_eq : ∀ id, t.isTerminal id = u.isTerminal id
  words : ∀ id < t.size, t.isTerminal id → ∃ word, t.textOf id = .ok word ∧ u.textOf id = .ok word
  length_eq : x.utf8ByteSize = y.utf8ByteSize
  bytes : ∀ (n : Nat) (b c : UInt8), x.toUTF8.data[n]? = some b → y.toUTF8.data[n]? = some c →
    b ≠ c → (∀ id < t.size, t.isTerminal id → ¬ (t.start id ≤ n ∧ n < t.stop id)) ∧
      (b = 32 ∧ c = 9 ∨ b = 9 ∧ c = 32)

/-! ### The dump of a parse -/

/-- The root of a planted tree is dumped as the lines of its forest. -/
theorem Tree.Planted.exists_dump {t : Tree} {text : String} {f : Forest} (h : t.Planted text f)
    (hwords : f.Worded text.toList) : ∃ s, t.dumpNode Tree.root 0 = .ok s ∧
      s.toList = ((Forest.branch .program .zero (byteSize text.toList) f .nil).lines
        text.toList 0).flatMap DumpLine.written := by
  obtain ⟨texts, htexts, hlines⟩ := h.bears.exists_dump
    (Forest.worded_branch.2 ⟨h.text_eq ▸ hwords, List.forall_mem_nil _⟩) 0
  rw [Forest.roots, Forest.roots, List.mapM_cons] at htexts
  cases hroot : t.dumpNode Tree.root 0 with
  | error =>
    rw [hroot] at htexts
    contradiction
  | ok s =>
    rw [hroot] at htexts
    obtain rfl := Except.ok.inj htexts
    rw [h.text_eq] at hlines
    exact ⟨s, rfl, by simpa using hlines⟩

/-- The diagnostics of a dump stand behind a hyphen. -/
theorem Parse.dump_of_dumpNode {p : Parse} {s : String} (h : p.tree.dumpNode Tree.root 0 = .ok s) :
    ∃ tail, p.dump = .ok (s ++ tail) ∧ tail.toList.head?.all (· == '-') := by
  rw [Parse.dump, h]
  cases hclean : p.isClean with
  | true => exact ⟨"", by rw [String.append_empty]; rfl, rfl⟩
  | false =>
    refine ⟨"---\nErrors:\n" ++
      String.join (p.diagnostics.map fun d => "  - " ++ d.display ++ "\n"), ?_, by simp⟩
    rw [← String.append_assoc]
    rfl

/-- Every text has a dump: the lines of its tree, and behind a hyphen its diagnostics. -/
theorem exists_dump_parse (text : String) (o : Options) : ∃ f s tail,
    (parse text o).tree.Planted text f ∧ f.Worded text.toList ∧ (parse text o).dump = .ok s ∧
    s.toList = ((Forest.branch .program .zero (byteSize text.toList) f .nil).lines
      text.toList 0).flatMap DumpLine.written ++ tail ∧ tail.head?.all (· == '-') := by
  obtain ⟨f', ds, d, h⟩ := Reading.exists_reads o.nestingLimit [] true (.ofText text.toList)
  obtain ⟨f, hf⟩ : ∃ f, f = f' ++ .leaf .eof d.position d.offset .nil := ⟨_, rfl⟩
  have hplanted : (parse text o).tree.Planted text f := hf ▸ (Reading.parse_of_reads h).1
  have hwords : f.Worded text.toList := by
    intro u hu
    obtain ⟨id, hid, rfl⟩ := List.mem_map.1 (hplanted.tokens_eq ▸ hu)
    obtain ⟨-, hlt⟩ := hplanted.enumerated.mem_tokens_iff.1 hid
    obtain ⟨hdivides, -⟩ := (total_parse text o).slices id hlt
    exact isSome_slice?_iff.2 ⟨hdivides.le, hdivides.start, hdivides.stop⟩
  obtain ⟨s, hs, hlines⟩ := hplanted.exists_dump hwords
  obtain ⟨tail, hdump, htail⟩ := Parse.dump_of_dumpNode hs
  exact ⟨f, s ++ tail, tail.toList, hplanted, hwords, hdump, by rw [String.toList_append, hlines],
    htail⟩

/-! ### Trees with one dump -/

theorem Tree.Planted.unplaced_node {t : Tree} {text : String} {f : Forest} (h : t.Planted text f)
    (id : NodeId) : (t.node id).unplaced =
      ((((Forest.branch .program .zero (byteSize text.toList) f .nil).nodes none Tree.root).map
        Node.unplaced)[id]?).getD (default : Node).unplaced := by
  rw [Tree.node, Arena.node, Array.getD_eq_getD_getElem?, ← h.nodes_eq, List.getElem?_map,
    Array.getElem?_toList, Option.getD_map]

section Alike

variable {t u : Tree} {x y : String} {f g : Forest} (ht : t.Planted x f) (hu : u.Planted y g)
  (h : Forest.Alike x.toList y.toList (.branch .program .zero (byteSize x.toList) f .nil)
    (.branch .program .zero (byteSize y.toList) g .nil))
include ht hu h

theorem unplaced_node_eq (id : NodeId) : (t.node id).unplaced = (u.node id).unplaced := by
  rw [ht.unplaced_node, hu.unplaced_node, h.map_unplaced]

theorem size_eq_of_alike : t.size = u.size := by
  have hsize := h.size_eq
  simp only [Forest.size] at hsize
  rw [ht.size_eq, hu.size_eq]
  omega

theorem tokens_eq_of_alike : t.tokens = u.tokens := by
  rw [ht.enumerated.tokens_eq, hu.enumerated.tokens_eq, size_eq_of_alike ht hu h]
  exact List.filter_congr fun id _ =>
    congrArg (fun p => p.2.2.2.isNone) (unplaced_node_eq ht hu h id)

theorem span_eq_of_alike (id : NodeId) : t.span id = u.span id :=
  congrArg (·.2.1) (unplaced_node_eq ht hu h id)

/-- Each terminal has its word in both texts. -/
theorem exists_slice?_of_alike (hwords : f.Worded x.toList) : ∀ id ∈ t.tokens,
    ∃ w, slice? x.toList (t.span id) = some w ∧ slice? y.toList (u.span id) = some w := by
  have hall := h.map_slice?
  simp only [Forest.terminals, List.append_nil, ← ht.tokens_eq, ← hu.tokens_eq, List.map_map,
    ← tokens_eq_of_alike ht hu h] at hall
  intro id hid
  have hsome := hwords _ (ht.tokens_eq ▸ List.mem_map_of_mem (f := t.terminalAt) hid)
  obtain ⟨w, hw⟩ := Option.isSome_iff_exists.1 hsome
  exact ⟨w, hw, (List.map_inj_left.1 hall id hid).symm.trans hw⟩

/-- Where bytes differ there is no terminal, and so they are spaces and tabs. -/
theorem bytes_of_alike (hwords : f.Worded x.toList) (hx : t.Lossless x) (hy : u.Lossless y)
    {n : Nat} {b c : UInt8} (hb : x.toUTF8.data[n]? = some b) (hc : y.toUTF8.data[n]? = some c)
    (hne : b ≠ c) : (∀ id ∈ t.tokens, ¬ (t.start id ≤ n ∧ n < t.stop id)) ∧
      (b = 32 ∧ c = 9 ∨ b = 9 ∧ c = 32) := by
  have hspan := span_eq_of_alike ht hu h
  have hout : ∀ id ∈ t.tokens, ¬ (t.start id ≤ n ∧ n < t.stop id) := by
    rintro id hid ⟨hle, hlt⟩
    obtain ⟨w, hw, hw'⟩ := exists_slice?_of_alike ht hu h hwords id hid
    rw [← hspan] at hw'
    rw [getElem?_toUTF8, getElem?_utf8_of_slice? hw hle hlt] at hb
    rw [getElem?_toUTF8, getElem?_utf8_of_slice? hw' hle hlt, hb] at hc
    exact hne (Option.some.inj hc)
  have hspace : isSpaceByte b := (hx.blank n b hb).resolve_left fun ⟨id, hid, hin⟩ =>
    hout id hid hin
  have hspace' : isSpaceByte c := (hy.blank n c hc).resolve_left fun ⟨id, hid, hin⟩ => by
    rw [← tokens_eq_of_alike ht hu h] at hid
    rw [Tree.start, Tree.stop, ← hspan] at hin
    exact hout id hid hin
  refine ⟨hout, ?_⟩
  rcases hspace with rfl | rfl <;> rcases hspace' with rfl | rfl
  · exact absurd rfl hne
  · exact .inl ⟨rfl, rfl⟩
  · exact .inr ⟨rfl, rfl⟩
  · exact absurd rfl hne

theorem alike_of_planted (hwords : f.Worded x.toList) (hx : t.Lossless x) (hy : u.Lossless y) :
    t.Alike x y u := by
  have hnode := unplaced_node_eq ht hu h
  have hmem {id : NodeId} (hid : id < t.size) (hterminal : t.isTerminal id) : id ∈ t.tokens :=
    ht.enumerated.mem_tokens_iff.2 ⟨hterminal, hid⟩
  constructor
  case size_eq => exact size_eq_of_alike ht hu h
  case kind_eq => exact fun id => congrArg (·.1) (hnode id)
  case span_eq => exact span_eq_of_alike ht hu h
  case parent_eq => exact fun id => congrArg (·.2.2.1) (hnode id)
  case children_eq => exact fun id => congrArg (·.2.2.2.getD #[]) (hnode id)
  case isTerminal_eq => exact fun id => congrArg (·.2.2.2.isNone) (hnode id)
  case words =>
    intro id hid hterminal
    obtain ⟨w, hw, hw'⟩ := exists_slice?_of_alike ht hu h hwords id (hmem hid hterminal)
    exact ⟨.ofList w, ht.textOf_eq hw, hu.textOf_eq hw'⟩
  case length_eq =>
    have hroot := List.head_eq_of_cons_eq (h.map_unplaced none Tree.root)
    rw [← byteSize_toList, ← byteSize_toList]
    exact congrArg (·.2.1.stop) hroot
  case bytes =>
    intro n b c hb hc hne
    obtain ⟨hout, hpair⟩ := bytes_of_alike ht hu h hwords hx hy hb hc hne
    exact ⟨fun id hid hterminal => hout id (hmem hid hterminal), hpair⟩

end Alike

/-- Parses that are dumped alike are alike. -/
theorem alike_of_dump_eq {x y : String} {o o' : Options}
    (h : (parse x o).dump = (parse y o').dump) : (parse x o).tree.Alike x y (parse y o').tree := by
  obtain ⟨f, s, tail, hx, hwords, hs, hlines, htail⟩ := exists_dump_parse x o
  obtain ⟨g, s', tail', hy, hwords', hs', hlines', htail'⟩ := exists_dump_parse y o'
  rw [hs, hs'] at h
  obtain rfl := Except.ok.inj h
  obtain ⟨hsame, -⟩ := DumpLine.flatMap_written_inj htail htail' (hlines.symm.trans hlines')
  have hnone (text : List Char) : Forest.Worded text .nil := List.forall_mem_nil _
  have htop : Forest.Shallower 0 [] := nofun
  obtain ⟨halike, -⟩ := Forest.alike_of_lines (Forest.worded_branch.2 ⟨hwords, hnone _⟩)
    (Forest.worded_branch.2 ⟨hwords', hnone _⟩) htop htop (congrArg (· ++ []) hsame)
  exact alike_of_planted hx hy halike hwords (lossless_parse x o) (lossless_parse y o')

/-- A tab between terminals is dumped as a space is. -/
theorem alike_of_tab : (parse "a b" ⟨256⟩).dump = (parse "a\tb" ⟨256⟩).dump ∧
    (parse "a b" ⟨256⟩).tree.Alike "a b" "a\tb" (parse "a\tb" ⟨256⟩).tree :=
  have h : (parse "a b" ⟨256⟩).dump = (parse "a\tb" ⟨256⟩).dump := by decide +kernel
  ⟨h, alike_of_dump_eq h⟩

end MplWorkbench
