import Mathlib.Data.List.Sort
import MplWorkbench.Proofs.Reading.Spelling
import MplWorkbench.Proofs.Traversal
import MplWorkbench.Proofs.Tree.Name

/-! What a name refers to.

The terminals that name labels are, in order, the names of the labels that are
listed (`Grown.filter_isLabelName`). So to walk back from a name to the first label
called so is to take the last such label of the listing that begins no later
(`Grown.declaredBefore?_eq`). What is compared is a name without its access mark.

`exists_resolved`: the name at a caret, and the label that it refers to. -/
namespace MplWorkbench

namespace Tree

variable {t : Tree} {text : String} {f : Forest} {stop : Position} {id name : Nat}

/-! ### Labels of a tree -/

theorem textOf_eq_word (h : ∃ w, t.textOf id = .ok w) :
    t.textOf id = .ok (.ofList (t.word id)) := by
  obtain ⟨w, hw⟩ := h
  rw [word, hw]
  exact congrArg Except.ok String.ofList_toList.symm

/-- The label of a label node with that name node. -/
def labelAt (t : Tree) (id name : NodeId) : Label :=
  ⟨.ofList (t.word name), t.span name, t.span id, (t.node name).line, (t.node name).column,
    t.isReset id⟩

theorem labelOf_eq (h : ∃ w, t.textOf name = .ok w) :
    t.labelOf id name = .ok (t.labelAt id name) := by
  rw [labelOf, textOf_eq_word h]
  rfl

theorem definitionOf_eq (h : ∃ w, t.textOf name = .ok w) (id : NodeId) :
    t.definitionOf name = .ok (t.labelAt id name).definition := by
  rw [definitionOf, textOf_eq_word h]
  rfl

theorem mem_of_labelName? (h : t.labelName? id = some name) :
    name ∈ t.children id ∧ t.kind name = .name := by
  unfold labelName? at h
  split at h
  · obtain ⟨hfirst, hkind⟩ := Option.filter_eq_some_iff.1 h
    exact ⟨Array.mem_of_getElem? hfirst, eq_of_beq hkind⟩
  · contradiction

theorem isLabel_of_labelName? (h : t.labelName? id = some name) : t.isLabel id := by
  unfold labelName? at h
  split at h
  · assumption
  · contradiction

/-- The nodes of labels and of their names. -/
def labelNames (t : Tree) : List (NodeId × NodeId) :=
  t.labels.filterMap fun id => (t.labelName? id).map (id, ·)

theorem labelName?_of_mem {names : NodeId × NodeId} (h : names ∈ t.labelNames) :
    t.labelName? names.1 = some names.2 := by
  obtain ⟨id, -, hmap⟩ := List.mem_filterMap.1 h
  obtain ⟨name, hname, rfl⟩ := Option.map_eq_some_iff.1 hmap
  exact hname

namespace Grown

variable (h : t.Grown text f stop)
include h

theorem isLabelName_iff : t.isLabelName name ↔ ∃ id, t.labelName? id = some name := by
  rw [Tree.isLabelName, beq_iff_eq, Option.bind_eq_some_iff]
  refine ⟨fun ⟨id, _, hname⟩ => ⟨id, hname⟩, fun ⟨id, hname⟩ => ⟨id, ?_, hname⟩⟩
  exact h.planted.parent_eq (mem_of_labelName? hname).1

theorem mem_tokens_of_labelName? (hname : t.labelName? id = some name) : name ∈ t.tokens := by
  obtain ⟨hmem, hkind⟩ := mem_of_labelName? hname
  obtain ⟨hlt, hsize⟩ := lt_of_mem_children hmem
  have hne : name ≠ root := Nat.ne_of_gt (Nat.lt_of_le_of_lt (Nat.zero_le _) hlt)
  exact h.mem_tokens_iff.2 ⟨h.isTerminal_of_kind hsize hne (by rw [hkind]; rfl), hsize⟩

theorem mem_labelNames_iff : (id, name) ∈ t.labelNames ↔ t.labelName? id = some name := by
  refine ⟨labelName?_of_mem, fun hname => ?_⟩
  have hlabel := isLabel_of_labelName? hname
  have hsize := lt_size_of_inner (inner_of_mem_children (mem_of_labelName? hname).1)
  have hpos : 1 ≤ id := Nat.pos_of_ne_zero fun hzero => by
    rw [isLabel, hzero, show 0 = root from rfl, h.framed.root_kind] at hlabel
    contradiction
  refine List.mem_filterMap.2 ⟨id, List.mem_filter.2 ⟨?_, hlabel⟩, by rw [hname]; rfl⟩
  exact h.mem_symbols_iff.2 ⟨hpos, hsize⟩

/-- The name of a label comes right behind the label. -/
theorem eq_succ_of_labelName? (hname : t.labelName? id = some name) : name = id + 1 := by
  have hinner := inner_of_mem_children (mem_of_labelName? hname).1
  rw [labelName?, if_pos (isLabel_of_labelName? hname), h.firstChild?_eq hinner] at hname
  exact (Option.some.inj (Option.filter_eq_some_iff.1 hname).1).symm

/-- The names of labels come in the order of the labels. -/
theorem pairwise_labelNames : (t.labelNames.map (·.2)).Pairwise (· < ·) := by
  have hlabels : t.labels.Pairwise (· < ·) := by
    rw [labels, h.planted.enumerated.symbols_eq]
    exact (List.pairwise_lt_range' 1).filter _
  rw [List.pairwise_map, labelNames, List.pairwise_filterMap]
  refine hlabels.imp fun {a b} hab x hx y hy => ?_
  obtain ⟨name, hname, rfl⟩ := Option.map_eq_some_iff.1 hx
  obtain ⟨name', hname', rfl⟩ := Option.map_eq_some_iff.1 hy
  rw [h.eq_succ_of_labelName? hname, h.eq_succ_of_labelName? hname']
  exact Nat.succ_lt_succ hab

/-- The terminals that name labels are the names of the labels that are listed. -/
theorem filter_isLabelName : t.tokens.filter t.isLabelName = t.labelNames.map (·.2) := by
  have htokens : t.tokens.Pairwise (· < ·) := h.pairwise_tokens.imp And.left
  refine List.Pairwise.eq_of_mem_iff (htokens.filter _) h.pairwise_labelNames fun name => ?_
  rw [List.mem_filter, h.isLabelName_iff, List.mem_map]
  constructor
  · rintro ⟨-, id, hname⟩
    exact ⟨(id, name), h.mem_labelNames_iff.2 hname, rfl⟩
  · rintro ⟨names, hmem, rfl⟩
    have hname := labelName?_of_mem hmem
    exact ⟨h.mem_tokens_of_labelName? hname, _, hname⟩

/-! ### Looking back -/

/-- The terminals up to one that is not the end of the text are those that begin no later. -/
theorem filter_start_le {front back : List NodeId} (htokens : t.tokens = front ++ id :: back)
    (hkind : t.kind id ≠ .eof) : t.tokens.filter (t.start · ≤ t.start id) = front ++ [id] := by
  have hordered := h.pairwise_tokens
  rw [htokens, List.pairwise_append, List.pairwise_cons] at hordered
  obtain ⟨-, ⟨hafter, -⟩, hacross⟩ := hordered
  obtain ⟨hid, hlt⟩ := h.mem_tokens_iff.1
    (htokens ▸ List.mem_append_right front (List.mem_cons_self (l := back)))
  have hsize := h.size_eq
  have hle : id ≤ f.size := by
    refine Nat.le_of_not_lt fun hgt => hkind ?_
    obtain rfl : id = f.size + 1 := by omega
    exact h.end_eq.2.1
  have hwidth := h.start_lt_stop (h.pos_of_isTerminal hid) hle
  have hfront : front.filter (t.start · ≤ t.start id) = front := by
    refine List.filter_eq_self.2 fun m hm => decide_eq_true ?_
    obtain ⟨hm', hlt'⟩ := h.mem_tokens_iff.1 (htokens ▸ List.mem_append_left _ hm)
    exact Nat.le_trans (h.between (h.pos_of_isTerminal hm') hlt').1
      (hacross m hm id List.mem_cons_self).2
  have hback : back.filter (t.start · ≤ t.start id) = [] := by
    refine List.filter_eq_nil_iff.2 fun m hm => ?_
    rw [decide_eq_true_iff]
    exact Nat.not_le.2 (Nat.lt_of_lt_of_le hwidth (hafter m hm).2)
  have hhere : decide (t.start id ≤ t.start id) = true := decide_eq_true (Nat.le_refl _)
  rw [htokens, List.filter_append, hfront, List.filter_cons, hhere, hback]
  rfl

/-- The last name of a label that fits, at or before a terminal, is the last of the listing. -/
theorem find?_back {front back : List NodeId} (htokens : t.tokens = front ++ id :: back)
    (hkind : t.kind id ≠ .eof) (p : NodeId → Bool) :
    (id :: front.reverse).find? (fun k => t.isLabelName k && p k) =
      (t.labelNames.filter fun names => p names.2 && t.start names.2 ≤ t.start id).getLast?.map
        (·.2) := by
  have hback : id :: front.reverse = (front ++ [id]).reverse := by simp
  rw [hback, ← List.getLast?_filter, ← h.filter_start_le htokens hkind, ← List.getLast?_map]
  refine congrArg List.getLast? ?_
  calc (t.tokens.filter (t.start · ≤ t.start id)).filter (fun k => t.isLabelName k && p k)
    _ = (t.tokens.filter t.isLabelName).filter fun k => p k && t.start k ≤ t.start id := by
      rw [List.filter_filter, List.filter_filter]
      exact List.filter_congr fun k _ => by ac_rfl
    _ = (t.labelNames.filter fun names => p names.2 && t.start names.2 ≤ t.start id).map (·.2) := by
      rw [h.filter_isLabelName, List.filter_map]
      rfl

/-- The label that a walk back from a name finds is the last of that name that begins no later. -/
theorem declaredBefore?_eq (htext : ∀ id < t.size, ∃ w, t.textOf id = .ok w) (hid : id ∈ t.tokens)
    (hkind : t.kind id ≠ .eof) (bare : String) : t.declaredBefore? id bare =
      .ok (((t.labelNames.map fun (id, name) => t.labelAt id name).filter fun s =>
        s.name == bare && s.nameSpan.start ≤ t.start id).getLast?.map Label.definition) := by
  obtain ⟨front, back, htokens⟩ := List.append_of_mem hid
  have hback := (h.planted.enumerated.token_links front id back htokens).2.2
  have hdeclares : ∀ k ∈ id :: front.reverse, t.declares bare k =
      .ok (t.isLabelName k && String.ofList (t.word k) == bare) := by
    intro k hk
    have hmem : k ∈ t.tokens := by
      rw [htokens, List.append_cons]
      refine List.mem_append_left _ (List.mem_reverse.1 ?_)
      rwa [List.reverse_append]
    rw [declares]
    cases t.isLabelName k with
    | false => rfl
    | true =>
      rw [if_pos rfl, textOf_eq_word (htext k (h.mem_tokens_iff.1 hmem).2)]
      rfl
  have hlabels : ((t.labelNames.map fun (id, name) => t.labelAt id name).filter fun s =>
      s.name == bare && s.nameSpan.start ≤ t.start id) =
      (t.labelNames.filter fun names => String.ofList (t.word names.2) == bare &&
        t.start names.2 ≤ t.start id).map fun (id, name) => t.labelAt id name := List.filter_map
  rw [declaredBefore?, hback, findM?_eq_ok hdeclares, h.find?_back htokens hkind, hlabels,
    List.getLast?_map]
  cases hlast : (t.labelNames.filter fun names => String.ofList (t.word names.2) == bare &&
      t.start names.2 ≤ t.start id).getLast? with
  | none => rfl
  | some names =>
    have hmem := List.mem_of_mem_filter (List.mem_of_getLast? hlast)
    have hsize := (lt_of_mem_children (mem_of_labelName? (labelName?_of_mem hmem)).1).2
    show (do return some (← t.definitionOf names.2)) = _
    rw [definitionOf_eq (htext _ hsize) names.1]
    rfl

end Grown

end Tree

/-! ### Names of a text -/

theorem exists_textOf_parse (text : String) (o : Options) {id : NodeId}
    (hid : id < (parse text o).tree.size) : ∃ w, (parse text o).tree.textOf id = .ok w := by
  obtain ⟨f, ds, d, h⟩ := Reading.exists_reads o.nestingLimit [] true (.ofText text.toList)
  have hplanted := (Reading.parse_of_reads h).1
  refine Tree.exists_textOf ?_
  rw [hplanted.text_eq]
  exact h.divides (hplanted.span_mem hid)

theorem labels_parse (text : String) (o : Options) : (parse text o).labels =
    .ok ((parse text o).tree.labelNames.map fun (id, name) =>
      (parse text o).tree.labelAt id name) := by
  refine mapM_eq_ok fun names hmem => ?_
  have hname := (Tree.mem_of_labelName? (Tree.labelName?_of_mem hmem)).1
  have hsize := (Tree.lt_of_mem_children hname).2
  exact Tree.labelOf_eq (exists_textOf_parse text o hsize)

/-- A reading of the text comes by each name, and takes characters of words. -/
theorem exists_takes_of_isName {text : String} {o : Options} {id : NodeId}
    (hid : id ∈ (parse text o).tree.tokens) (hname : ((parse text o).tree.kind id).isName) :
    ∃ a e : Cursor, (Cursor.ofText text.toList).Reaches a ∧
      a.Takes ((parse text o).tree.word id) e ∧
      a.position = ((parse text o).tree.terminalAt id).start ∧
      e.offset = (parse text o).tree.stop id ∧
      (∀ x ∈ (parse text o).tree.word id, Lexeme.isWordChar x) ∧
      ∃ bare, (parse text o).tree.word id =
        Lexeme.accessMark ((parse text o).tree.kind id) ++ bare := by
  obtain ⟨f, ds, d, h⟩ := Reading.exists_reads o.nestingLimit [] true (.ofText text.toList)
  have hplanted := h.grown.planted
  have hmem := List.mem_map_of_mem (f := (parse text o).tree.terminalAt) hid
  rw [hplanted.tokens_eq, Forest.terminals_append] at hmem
  rcases List.mem_append.1 hmem with hmem | hmem
  · obtain ⟨a, e, ha, hstart, ⟨w, hw, hchars⟩, hstop, m, hmark, hbare⟩ := h.worded _ hmem hname
    have hword {v : List Char} (hv : a.Takes v e) : (parse text o).tree.word id = v := by
      have hslice := hv.slice?_eq ((Cursor.in_ofText text.toList).reaches ha)
      rw [Cursor.offset, hstart, hstop] at hslice
      rw [Tree.word_eq, hplanted.text_eq]
      exact congrArg (Option.getD · []) hslice
    obtain ⟨bare, hbare⟩ := hbare.takes
    exact ⟨a, e, ha, hword hw ▸ hw, hstart, hstop, hword hw ▸ hchars, bare,
      hword (hmark.trans hbare)⟩
  · have heof : (parse text o).tree.kind id = .eof :=
      congrArg Forest.Terminal.kind (List.mem_singleton.1 hmem)
    rw [heof] at hname
    contradiction

/-- The bare name is what stands behind the access mark. -/
theorem Tree.bareName_eq {t : Tree} {id : NodeId} {bare : List Char}
    (htext : ∃ w, t.textOf id = .ok w)
    (hword : t.word id = Lexeme.accessMark (t.kind id) ++ bare) :
    t.bareName id = .ok (.ofList bare) := by
  refine bareName_of_textOf ?_
  rw [textOf_eq_word htext, hword]

/-- What is said of the names in a text with these labels. -/
structure Resolved (text : String) (o : Options) (ls : List Label) : Prop where
  labels_eq : (parse text o).labels = .ok ls
  nameAt?_eq : ∀ offset, (parse text o).nameAt? offset =
    (parse text o).tree.tokens.find? ((parse text o).tree.touches offset)
  definitionAt?_none : ∀ offset, (parse text o).nameAt? offset = none →
    (parse text o).definitionAt? offset = .ok none
  /-- A name refers to the last label called so, without its access mark, that begins no later. -/
  definitionAt?_some : ∀ offset id, (parse text o).nameAt? offset = some id →
    ∃ bare : String, (parse text o).tree.textOf id =
        .ok (.ofList (Lexeme.accessMark ((parse text o).tree.kind id)) ++ bare) ∧
      (parse text o).definitionAt? offset = .ok ((ls.filter fun s =>
        s.name == bare && s.nameSpan.start ≤ (parse text o).tree.start id).getLast?.map
          Label.definition)

/-- The name at any caret of any text, and the label that it refers to. -/
theorem exists_resolved (text : String) (o : Options) : ∃ ls, Resolved text o ls := by
  obtain ⟨f, stop, h, -⟩ := Reading.exists_grown text o
  refine ⟨_, labels_parse text o, h.nameAt?, fun offset hname => ?_, fun offset id hname => ?_⟩
  · rw [Parse.definitionAt?, hname]
    rfl
  have hfound := (h.nameAt? offset).symm.trans hname
  have hid := List.mem_of_find?_eq_some hfound
  have htouch := List.find?_some hfound
  have hisName : ((parse text o).tree.kind id).isName :=
    (Bool.and_eq_true_iff.1 (Bool.and_eq_true_iff.1 htouch).1).1
  have hkind : (parse text o).tree.kind id ≠ .eof := by
    intro heof
    rw [heof] at hisName
    contradiction
  have htext := exists_textOf_parse text o (h.mem_tokens_iff.1 hid).2
  obtain ⟨_, _, -, -, -, -, -, bare, hword⟩ := exists_takes_of_isName hid hisName
  refine ⟨.ofList bare, ?_, ?_⟩
  · rw [Tree.textOf_eq_word htext, hword, String.ofList_append]
  · rw [Parse.definitionAt?, hname]
    show (do (parse text o).tree.declaredBefore? id (← (parse text o).tree.bareName id)) = _
    rw [Tree.bareName_eq htext hword]
    exact h.declaredBefore?_eq (fun _ => exists_textOf_parse text o) hid hkind _

end MplWorkbench
