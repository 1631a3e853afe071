import MplWorkbench.Project.Sources
import MplWorkbench.Proofs.Files.Search

/-! The pattern of a folder.

The files of a folder are found by a pattern that begins with the path of the
folder, escaped. So the search goes along the path first, and goes through the
folder after that, whose way of spelling then is that of all that is found.

`Search.likewise_files`: the files that are found in a folder are the same if it is
spelled from the top, and then are spelled so too. -/
namespace MplWorkbench

open MplWorkbench.Path

namespace Search

open Disk Pattern

variable {d : Disk} {p q : Path} {place : Place} {piece : Pattern} {rest : List Pattern}
  {es : List (List Char × Entry)}

/-! ### From patterns to searches -/

/-- Where the search for a path begins. -/
def startOf (p : Path) : Path := if p.isAbsolute then ⟨['/']⟩ else ⟨['.']⟩

/-- The segments that a search for a path goes along. -/
def wayOf (p : Path) : List (List Char) := segments (if p.isAbsolute then p.text.tail else p.text)

/-- The search for a path comes to where the path leads to, and goes on from there. -/
def Opens (d : Disk) (p : Path) : Prop :=
  p.text ≠ [] ∧ ∀ rest q,
    q ∈ find d (startOf p) ((wayOf p).map literally ++ rest) ↔ q ∈ find d p rest

/-- What is looked for in a folder. -/
def inside (extension : List Char) : List Char := "**/*.".toList ++ extension

theorem pieces_append (text more : List Char) :
    pieces (escape text ++ '/' :: more) = (segments text).map escape ++ pieces more := by
  have hne := segments_ne_nil more
  rw [pieces, pieces, segments_append_slash, segments_escape, List.getLast?_append_of_ne_nil _ hne]
  split
  · exact List.dropLast_append_of_ne_nil hne
  · rfl

theorem mapM_parse_append (names more : List (List Char)) :
    (names.map escape ++ more).mapM Pattern.parse =
      (do return names.map literally ++ (← more.mapM Pattern.parse)) := by
  induction names with
  | nil =>
    rw [List.map_nil, List.nil_append]
    cases more.mapM Pattern.parse <;> rfl
  | cons n ns ih =>
    rw [List.map_cons, List.cons_append, List.mapM_cons, parse_escape, ih]
    cases more.mapM Pattern.parse <;> rfl

theorem collapse_cons (h : piece.spansFolders = false) (ps : List Pattern) :
    collapse (piece :: ps) = piece :: collapse ps := by
  cases ps with
  | nil => rfl
  | cons next rest => rw [collapse, h, Bool.false_and, if_neg Bool.false_ne_true]

theorem collapse_append (names : List (List Char)) (ps : List Pattern) :
    collapse (names.map literally ++ ps) = names.map literally ++ collapse ps := by
  induction names with
  | nil => rfl
  | cons n ns ih =>
    rw [List.map_cons, List.cons_append, collapse_cons (spansFolders_literally n), ih]
    rfl

/-- What goes through all folders still does so where it is one with what follows. -/
theorem exists_collapse (hspans : piece.spansFolders) (ps : List Pattern) :
    ∃ first rest, collapse (piece :: ps) = first :: rest ∧ first.spansFolders := by
  induction ps generalizing piece with
  | nil => exact ⟨piece, [], rfl, hspans⟩
  | cons next ps ih =>
    rw [collapse]
    split
    · next h => exact ih (Bool.and_eq_true_iff.1 h).2
    · exact ⟨piece, _, rfl, hspans⟩

/-- Both fail, or both find the same. -/
inductive Agree {ε : Type} : Except ε (List Path) → Except ε (List Path) → Prop
  | error (e e' : ε) : Agree (.error e) (.error e')
  | ok {found found' : List Path} (mem_iff : ∀ q, q ∈ found ↔ q ∈ found') :
    Agree (.ok found) (.ok found')

/-- Both fail, or the second finds what the first does, spelled from the top. -/
inductive Likewise {ε : Type} (d : Disk) : Except ε (List Path) → Except ε (List Path) → Prop
  | error (e e' : ε) : Likewise d (.error e) (.error e')
  | ok {found found' : List Path} (plain : ∀ q ∈ found, q.Plain)
    (mem_iff : ∀ q', q' ∈ found' ↔ ∃ q ∈ found, d.fromTop q = q') :
    Likewise d (.ok found) (.ok found')

theorem Likewise.of_agree {ε : Type} {a a' b b' : Except ε (List Path)} (h : Likewise d a a')
    (hb : Agree b a) (hb' : Agree b' a') : Likewise d b b' := by
  cases h with
  | error =>
    cases hb
    cases hb'
    exact .error _ _
  | ok plain mem_iff =>
    cases hb with
    | ok hmem =>
      cases hb' with
      | ok hmem' =>
        refine .ok (fun q hq => plain q ((hmem q).1 hq)) fun q' => ?_
        rw [hmem' q', mem_iff]
        exact exists_congr fun q => and_congr_left fun _ => (hmem q).symm

theorem Likewise.isOk_eq {ε : Type} {a a' : Except ε (List Path)} (h : Likewise d a a') :
    a'.isOk = a.isOk := by
  cases h <;> rfl

theorem Likewise.plain_of_ok {ε : Type} {a a' : Except ε (List Path)} {found : List Path}
    (h : Likewise d a a') (ha : a = .ok found) : ∀ q ∈ found, q.Plain := by
  cases h with
  | error => cases ha
  | ok plain => exact Except.ok.inj ha ▸ plain

/-- The files with an extension, from the path of a folder on. -/
def filesFrom (d : Disk) (p : Path) (extension : List Char) : Except Pattern.Error (List Path) := do
  let _ ← tokensFrom 0 (some '/') (inside extension)
  let patterns ← (pieces (inside extension)).mapM Pattern.parse
  return if (inside extension).getLast? == some '/' then []
    else (find d p (collapse patterns)).filter d.isFile

theorem files_pattern (hp : p.text ≠ []) (extension : List Char) :
    files d (Project.pattern p extension) = (do
      let _ ← Pattern.parse (Project.pattern p extension)
      let patterns ← (pieces (inside extension)).mapM Pattern.parse
      return if (inside extension).getLast? == some '/' then []
        else
          (find d (startOf p) ((wayOf p).map literally ++ collapse patterns)).filter d.isFile) := by
  have hpattern : Project.pattern p extension = escape p.text ++ '/' :: inside extension :=
    List.append_assoc ..
  have hlast : (Project.pattern p extension).getLast? = (inside extension).getLast? := by
    rw [hpattern, List.append_cons, List.getLast?_append_of_ne_nil]
    exact List.append_ne_nil_of_left_ne_nil (by decide) _
  have htop : ((Project.pattern p extension).head? == some '/') = p.isAbsolute := by
    rw [hpattern, List.head?_append_of_ne_nil _ (escape_ne_nil hp), head?_escape]
    rfl
  have hway : (if p.isAbsolute then
      (Project.pattern p extension).tail else Project.pattern p extension) =
      escape (if p.isAbsolute then p.text.tail else p.text) ++ '/' :: inside extension := by
    rw [hpattern]
    split
    · next habsolute =>
      obtain ⟨rest, hrest⟩ := List.head?_eq_some_iff.1 (eq_of_beq habsolute)
      rw [hrest, escape_cons_of_notMem (by decide)]
      rfl
    · rfl
  rw [files]
  dsimp only
  rw [htop, hlast, hway, pieces_append, mapM_parse_append]
  cases Pattern.parse (Project.pattern p extension) with
  | error => rfl
  | ok =>
    cases (pieces (inside extension)).mapM Pattern.parse with
    | error => rfl
    | ok patterns =>
      show Except.ok _ = Except.ok _
      rw [collapse_append]
      rfl

theorem agree_files (hp : Opens d p) (extension : List Char) :
    Agree (files d (Project.pattern p extension)) (filesFrom d p extension) := by
  have hok := isOk_parse_escape p.text (inside extension)
  have hpattern : Project.pattern p extension = escape p.text ++ '/' :: inside extension :=
    List.append_assoc ..
  rw [files_pattern hp.1, filesFrom, hpattern]
  cases hparse : Pattern.parse (escape p.text ++ '/' :: inside extension) with
  | error =>
    cases htokens : tokensFrom 0 (some '/') (inside extension) with
    | error => exact .error _ _
    | ok =>
      rw [hparse, htokens] at hok
      cases hok
  | ok =>
    cases htokens : tokensFrom 0 (some '/') (inside extension) with
    | error =>
      rw [hparse, htokens] at hok
      cases hok
    | ok =>
      cases (pieces (inside extension)).mapM Pattern.parse with
      | error => exact .error _ _
      | ok patterns =>
        refine .ok fun q => ?_
        show q ∈ (if (inside extension).getLast? == some '/' then [] else _) ↔
          q ∈ (if (inside extension).getLast? == some '/' then [] else _)
        split
        · rfl
        · rw [List.mem_filter, List.mem_filter, hp.2]

theorem exists_pieces_inside (extension : List Char) :
    ∃ rest, pieces (inside extension) = ['*', '*'] :: rest := by
  have hsegments : segments (inside extension) =
      ['*', '*'] :: segments (['*', '.'] ++ extension) :=
    segments_append_slash ['*', '*'] (['*', '.'] ++ extension)
  have hne := segments_ne_nil (['*', '.'] ++ extension)
  rw [pieces, hsegments]
  split
  · exact ⟨_, List.dropLast_cons_of_ne_nil hne⟩
  · exact ⟨_, rfl⟩

theorem parse_folders : Pattern.parse ['*', '*'] = .ok ⟨['*', '*'], [.folders]⟩ := by
  have htoken : token 0 none '*' ['*'] = .ok (.folders, 1) := rfl
  have hend : tokensFrom 2 (some '*') [] = .ok [] := by rw [tokensFrom]
  rw [Pattern.parse, tokensFrom_cons htoken]
  show (do
    return Pattern.mk ['*', '*'] (← (tokensFrom 2 (some '*') []).map (Token.folders :: ·))) = _
  rw [hend]
  rfl

theorem FromTop.filter (hd : d.Sound) {found found' : List Path} (h : FromTop d found found') :
    FromTop d (found.filter d.isFile) (found'.filter d.isFile) := by
  obtain ⟨hplain, rfl⟩ := h
  refine ⟨fun q hq => hplain q (List.mem_filter.1 hq).1, ?_⟩
  rw [List.filter_map]
  exact congrArg _ (List.filter_congr fun q hq => has_fromTop hd (hplain q hq) Entry.isFile)

theorem FromTop.likewise {ε : Type} {found found' : List Path} (h : FromTop d found found') :
    Likewise d (.ok found : Except ε (List Path)) (.ok found') :=
  .ok h.1 fun q' => by rw [h.2, List.mem_map]

theorem likewise_filesFrom {p' : Path} (hd : d.Sound) (h : Respells d p p')
    (extension : List Char) : Likewise d (filesFrom d p extension) (filesFrom d p' extension) := by
  obtain ⟨rest, hpieces⟩ := exists_pieces_inside extension
  unfold filesFrom
  cases tokensFrom 0 (some '/') (inside extension) with
  | error e => exact .error e e
  | ok =>
    rw [hpieces, List.mapM_cons, parse_folders]
    cases rest.mapM Pattern.parse with
    | error e => exact .error e e
    | ok patterns =>
      have hfolders : (Pattern.mk ['*', '*'] [.folders]).spansFolders := rfl
      obtain ⟨first, more, hcollapse, hspans⟩ := exists_collapse hfolders patterns
      refine FromTop.likewise ?_
      split
      · exact .nil
      · rw [hcollapse]
        have hfound : FromTop d (find d p (first :: more)) (find d p' (first :: more)) :=
          find_respelled hd h hspans (literal?_of_spansFolders hspans)
            fun _ rest' _ q hq => find_fromTop hd rest' hq
        exact hfound.filter hd

/-! ### Folders in both spellings -/

theorem inFolder_top : inFolder ⟨['/']⟩ [] = ⟨['/']⟩ := by decide

theorem inFolder_here : inFolder ⟨['.']⟩ ['.'] = ⟨['.']⟩ := by decide

theorem opens_pathOf (hd : d.Sound) (hfolder : d.top.at? place = some (.folder es))
    (hlone : d.Unmistakable place) : Opens d (pathOf place) := by
  refine ⟨List.cons_ne_nil _ _, fun rest q => ?_⟩
  have hnames := (hd.named.at? hfolder).2
  show q ∈ find d ⟨['/']⟩ ((segments (['/'].intercalate place)).map literally ++ rest) ↔ _
  by_cases hne : place = []
  · subst hne
    have hliteral : (literally []).literal? = some [] := rfl
    have hentry : d.entry ⟨['/']⟩ = .ok (.folder es) :=
      entry_eq_ok_iff.2 ⟨[], locate_pathOf hfolder hnames, hfolder⟩
    show q ∈ find d ⟨['/']⟩ (literally [] :: rest) ↔ q ∈ find d ⟨['/']⟩ rest
    rw [find_of_literal hliteral, if_neg (by decide), inFolder_top, hentry]
    exact Iff.rfl
  · rw [segments_intercalate (fun n hn => (hnames n hn).1) hne]
    have hfolder : d.top.at? ([] ++ [] ++ place) = some (.folder es) := hfolder
    exact mem_find_way (spells_pathOf d) hfolder hd.named hlone

theorem opens_pathBelow (hd : d.Sound)
    (hfolder : d.top.at? (d.current ++ place) = some (.folder es))
    (hlone : d.Unmistakable (d.current ++ place)) : Opens d (pathBelow place) := by
  have hnames := (List.forall_mem_append.1 (hd.named.at? hfolder).2).2
  by_cases hne : place = []
  · subst hne
    have hliteral : (literally ['.']).literal? = some ['.'] := rfl
    rw [List.append_nil] at hfolder
    have hfolder : d.isFolder ⟨['.']⟩ := by
      have hlocate := (spells_pathBelow d).locate_eq [] es (List.append_nil _ ▸ hfolder) (by simp)
      rw [List.append_nil] at hlocate
      exact has_iff.2 ⟨_, entry_eq_ok_iff.2 ⟨_, hlocate, hfolder⟩, rfl⟩
    refine ⟨List.cons_ne_nil _ _, fun rest q => ?_⟩
    show q ∈ find d ⟨['.']⟩ (literally ['.'] :: rest) ↔ q ∈ find d ⟨['.']⟩ rest
    rw [find_of_literal hliteral, if_pos (by decide), if_pos hfolder, inFolder_here]
  · have hp := plain_pathBelow hnames hne
    have hway : wayOf (pathBelow place) = place := by
      rw [wayOf, hp.isAbsolute_eq, if_neg Bool.false_ne_true, pathBelow_eq hne]
      exact segments_intercalate (fun n hn => (hnames n hn).1) hne
    refine ⟨hp.text_ne, fun rest q => ?_⟩
    rw [hway, startOf, hp.isAbsolute_eq, if_neg Bool.false_ne_true]
    rw [← List.append_nil d.current] at hfolder hlone
    exact mem_find_way (spells_pathBelow d) hfolder hd.named hlone

theorem respells_pathBelow (hd : d.Sound) (hplace : ∀ n ∈ place, IsName n) :
    Respells d (pathBelow place) (pathOf (d.current ++ place)) := by
  by_cases hne : place = []
  · subst hne
    rw [List.append_nil]
    exact respells_current hd
  · have hpath : pathOf (d.current ++ place) = d.fromTop (pathBelow place) := by
      rw [pathOf, intercalate_append d.current hne, pathBelow_eq hne]
      rfl
    rw [hpath]
    exact respells_of_plain hd (plain_pathBelow hplace hne)

/-- The files in a folder are found alike in both spellings. -/
theorem likewise_files (hd : d.Sound) (hfolder : d.top.at? (d.current ++ place) = some (.folder es))
    (hlone : d.Unmistakable (d.current ++ place)) (extension : List Char) :
    Likewise d (files d (Project.pattern (pathBelow place) extension))
      (files d (Project.pattern (pathOf (d.current ++ place)) extension)) := by
  have hnames := (List.forall_mem_append.1 (hd.named.at? hfolder).2).2
  have hfrom := likewise_filesFrom hd (respells_pathBelow hd hnames) extension
  exact hfrom.of_agree (agree_files (opens_pathBelow hd hfolder hlone) extension)
    (agree_files (opens_pathOf hd hfolder hlone) extension)

end Search

end MplWorkbench
