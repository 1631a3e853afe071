import MplWorkbench.Proofs.Reading.Skipping

/-! Reading with a lower limit.

What a nesting limit takes away from a text without defects is told by its tree:
each scope that stands inside as many others as there may be becomes one error
terminal of the same extent, and is reported; all else stays (`Forest.collapse`,
`Forest.cuts`).

`parse_collapse`: the tree and the diagnostics under the lower limit are those. -/
namespace MplWorkbench

namespace Forest

/-! ### Scopes cut off -/

/-- Each scope inside `depth` others is replaced by an error terminal of the same extent. -/
def collapse : Forest → Nat → Forest
  | nil, _ => nil
  | leaf kind start stop next, depth => leaf kind start stop (next.collapse depth)
  | branch kind start stop inside next, depth =>
    if kind.isScope then
      match depth with
      | 0 => leaf .someError start stop (next.collapse 0)
      | depth + 1 => branch kind start stop (inside.collapse depth) (next.collapse (depth + 1))
    else branch kind start stop (inside.collapse depth) (next.collapse depth)

/-- The kinds and spans of the scopes that are replaced, in the order of the text. -/
def cuts : Forest → Nat → List (Kind × Span)
  | nil, _ => []
  | leaf _ _ _ next, depth => next.cuts depth
  | branch kind start stop inside next, depth =>
    if kind.isScope then
      match depth with
      | 0 => (scopeKind kind inside, ⟨start.offset, stop⟩) :: next.cuts 0
      | depth + 1 => inside.cuts depth ++ next.cuts (depth + 1)
    else inside.cuts depth ++ next.cuts depth

variable {kind : Kind} {start : Position} {stop depth : Nat} {inside next : Forest}

theorem collapse_scope_zero (h : kind.isScope) : (branch kind start stop inside next).collapse 0 =
    leaf .someError start stop (next.collapse 0) := by
  rw [collapse, if_pos h]

theorem collapse_scope_succ (h : kind.isScope) :
    (branch kind start stop inside next).collapse (depth + 1) =
      branch kind start stop (inside.collapse depth) (next.collapse (depth + 1)) := by
  rw [collapse, if_pos h]

theorem collapse_of_not_scope (h : ¬ kind.isScope) :
    (branch kind start stop inside next).collapse depth =
      branch kind start stop (inside.collapse depth) (next.collapse depth) := by
  cases depth <;> rw [collapse, if_neg h]

theorem cuts_scope_zero (h : kind.isScope) : (branch kind start stop inside next).cuts 0 =
    (scopeKind kind inside, ⟨start.offset, stop⟩) :: next.cuts 0 := by
  rw [cuts, if_pos h]

theorem cuts_scope_succ (h : kind.isScope) :
    (branch kind start stop inside next).cuts (depth + 1) =
      inside.cuts depth ++ next.cuts (depth + 1) := by
  rw [cuts, if_pos h]

theorem cuts_of_not_scope (h : ¬ kind.isScope) :
    (branch kind start stop inside next).cuts depth = inside.cuts depth ++ next.cuts depth := by
  cases depth <;> rw [cuts, if_neg h]

theorem collapse_append (f g : Forest) (depth : Nat) :
    (f ++ g).collapse depth = f.collapse depth ++ g.collapse depth := by
  induction f generalizing depth with
  | nil => rfl
  | leaf kind start stop next ih => rw [leaf_append, collapse, ih]; rfl
  | branch kind start stop inside next _ ih =>
    by_cases hscope : kind.isScope
    · cases depth with
      | zero => rw [branch_append, collapse_scope_zero hscope, collapse_scope_zero hscope, ih]; rfl
      | succ depth =>
        rw [branch_append, collapse_scope_succ hscope, collapse_scope_succ hscope, ih]; rfl
    · rw [branch_append, collapse_of_not_scope hscope, collapse_of_not_scope hscope, ih]; rfl

theorem cuts_append (f g : Forest) (depth : Nat) :
    (f ++ g).cuts depth = f.cuts depth ++ g.cuts depth := by
  induction f generalizing depth with
  | nil => rfl
  | leaf kind start stop next ih => exact ih depth
  | branch kind start stop inside next _ ih =>
    by_cases hscope : kind.isScope
    · cases depth with
      | zero => rw [branch_append, cuts_scope_zero hscope, cuts_scope_zero hscope, ih]; rfl
      | succ depth =>
        rw [branch_append, cuts_scope_succ hscope, cuts_scope_succ hscope, ih, List.append_assoc]
    · rw [branch_append, cuts_of_not_scope hscope, cuts_of_not_scope hscope, ih,
        List.append_assoc]

end Forest

/-- What is reported of a scope that is nested too deep. -/
def tooDeep (limit : Nat) (cut : Kind × Span) : Diagnostic :=
  ⟨cut.1, cut.2, "nesting depth limit of " ++ toString limit ++ " exceeded"⟩

namespace Reading

open Cursor Forest

variable {limit lower depth : Nat} {around : List Block} {fresh again : Bool} {block : Block}
  {c d opener : Cursor} {l : Lexeme} {f : Forest} {ds : List Diagnostic}

/-! ### Delimiters stay -/

theorem collapse_heading (block : Block) (c opener : Cursor) (depth : Nat) :
    (heading block c opener).collapse depth = heading block c opener ∧
      (heading block c opener).cuts depth = [] := by
  unfold heading
  split <;> exact ⟨rfl, rfl⟩

theorem collapse_inside (block : Block) (c opener d : Cursor) (f : Forest) (depth : Nat) :
    (heading block c opener ++ f ++ closing block d).collapse depth =
        heading block c opener ++ f.collapse depth ++ closing block d ∧
      (heading block c opener ++ f ++ closing block d).cuts depth = f.cuts depth := by
  obtain ⟨hcollapse, hcuts⟩ := collapse_heading block c opener depth
  refine ⟨?_, ?_⟩
  · rw [collapse_append, collapse_append, hcollapse]
    rfl
  · rw [cuts_append, cuts_append, hcuts]
    exact List.append_nil _

/-- The kind of a scope is that of its block. -/
theorem scopeKind_eq (block : Block) (c opener : Cursor) (f : Forest) :
    scopeKind block.production (heading block c opener ++ f) = block.kind := by
  cases block <;> rfl

/-! ### Stories under a lower limit -/

/-- A terminal without defects is one under any limit. -/
theorem Yields.of_clean (h : Yields limit depth fresh c l again) (hclean : l.diagnostics = []) :
    Yields lower depth fresh c l again := by
  cases h with
  | lineBreak h => exact .lineBreak h
  | member h => exact .member h
  | comment h => exact .comment h
  | comma h => exact .comma h
  | quoted h => exact .quoted h
  | raw h => exact .raw h
  | number h => exact .number h
  | access h => exact .access h
  | name h hcolon => exact .name h hcolon
  | stray h => exact .stray h
  | region => exact absurd hclean (List.cons_ne_nil _ _)

/-- A story without diagnostics goes the same way under a lower limit, past the scopes that are
cut off. -/
theorem Reads.collapse (h : Reads limit around fresh c f ds d) (hclean : ds = [])
    (hdepth : around.length + depth = lower) :
    Reads lower around fresh c (f.collapse depth) ((f.cuts depth).map (tooDeep lower)) d := by
  induction h generalizing depth with
  | stop hstop => exact .stop hstop
  | blank hspace _ ih => exact .blank hspace (ih hclean hdepth)
  | take hopen hl _ ih =>
    obtain ⟨hl', hnext⟩ := List.append_eq_nil_iff.1 hclean
    have htake := Reads.take hopen (hl.of_clean hl') (ih hnext hdepth)
    rwa [hl', List.nil_append] at htake
  | @closed around fresh block c opener d e f f' ds ds' hopen hb hlimit hinside hend hnext ihi
      ihn =>
    obtain ⟨hdsi, hdsn⟩ := List.append_eq_nil_iff.1 hclean
    have hscope := Block.isScope_production block
    have hafter := ihn hdsn hdepth
    cases depth with
    | zero =>
      -- the block is at the lower limit, and skipping it ends where reading it does
      subst hdsi
      have hregion : Lexeme.region block lower c.position opener =
          Lexeme.defective c.position (.tooDeep block lower) d.advance := by
        rw [Lexeme.region, hb.skipRegion_eq hinside hend]
      have hyields : Yields lower around.length fresh c
          (Lexeme.defective c.position (.tooDeep block lower) d.advance) false :=
        hregion ▸ .region hb (by omega)
      rw [collapse_scope_zero hscope, cuts_scope_zero hscope, Forest.append_assoc, scopeKind_eq]
      exact .take hopen hyields hafter
    | succ depth =>
      have hinner : (block :: around).length + depth = lower := by
        rw [List.length_cons]
        omega
      have hbody := ihi hdsi hinner
      have hfewer : around.length < lower := by omega
      obtain ⟨hcollapse, hcuts⟩ := collapse_inside block c opener d f depth
      rw [collapse_scope_succ hscope, cuts_scope_succ hscope, hcollapse, hcuts, List.map_append]
      exact .closed hopen hb hfewer hbody hend hafter
  | unclosed => exact absurd hclean (List.append_ne_nil_of_right_ne_nil _ (List.cons_ne_nil _ _))

end Reading

/-! ### Texts under a lower limit -/

/-- If a text has no defect under some limit, then a lower one cuts off the scopes that are nested
too deep for it, reports each, and changes nothing else. -/
theorem parse_collapse (text : String) {lower : Nat} (limit : Nat)
    (hlower : lower ≤ Options.greatestNesting) (hclean : (parse text ⟨limit⟩).isClean) :
    (parse text ⟨lower⟩).tree.outline = (parse text ⟨limit⟩).tree.outline.collapse lower ∧
      (parse text ⟨lower⟩).diagnostics =
        ((parse text ⟨limit⟩).tree.outline.cuts lower).map (tooDeep lower) := by
  have hnesting : (Options.mk lower).nestingLimit = lower := Nat.min_eq_left hlower
  have hprogram : ¬ Kind.program.isScope := Bool.false_ne_true
  obtain ⟨f, ds, d, h⟩ := Reading.exists_reads (Options.mk limit).nestingLimit [] true
    (.ofText text.toList)
  obtain ⟨hplanted, hds⟩ := Reading.parse_of_reads h
  have hnone : ds = [] := by
    rw [← hds]
    exact List.isEmpty_iff.1 hclean
  have hreads : Reading.Reads (Options.mk lower).nestingLimit [] true (.ofText text.toList)
      (f.collapse lower) ((f.cuts lower).map (tooDeep lower)) d := by
    rw [hnesting]
    exact h.collapse hnone (Nat.zero_add lower)
  obtain ⟨hplanted', hds'⟩ := Reading.parse_of_reads hreads
  rw [Tree.outline_of_planted hplanted, Tree.outline_of_planted hplanted', hds',
    Forest.collapse_of_not_scope hprogram, Forest.cuts_of_not_scope hprogram,
    Forest.collapse_append, Forest.cuts_append]
  exact ⟨rfl, by simp [Forest.cuts]⟩

/-- In `(a [b "]" ]) c:! (d);` the code is inside the list, and the list inside the label. -/
theorem parse_collapse_nested :
    (parse "(a [b \"]\" ]) c:! (d);" ⟨1⟩).tree.outline =
        (parse "(a [b \"]\" ]) c:! (d);" ⟨256⟩).tree.outline.collapse 1 ∧
      (parse "(a [b \"]\" ]) c:! (d);" ⟨1⟩).diagnostics =
        ((parse "(a [b \"]\" ]) c:! (d);" ⟨256⟩).tree.outline.cuts 1).map (tooDeep 1) :=
  parse_collapse _ 256 (by decide) (by decide +kernel)

end MplWorkbench
