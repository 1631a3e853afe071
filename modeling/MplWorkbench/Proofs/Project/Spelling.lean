import MplWorkbench.Proofs.Project.Folder

/-! The sources of a folder, by the spelling of its path.

A folder can be named by its path from the current folder, or by its path from the
top. The same files are found in both (`Search.likewise_files`), but what is left
out is told by how they are spelled: from the root of the project if the folder is
named from the top, and from the current folder if it is named from there. So it
is the same files that are collected only if the patterns make no difference
between the two, as they do if the current folder is the root.

`respelled_collect`: what is collected from a folder, in both spellings. -/
namespace MplWorkbench

open MplWorkbench.Path Disk

namespace Project

variable {p : Project} {d : Disk} {folder q : Path} {root inner place file : Place}
  {es : List (List Char × Entry)}

/-! ### What is selected -/

/-- All that is found in a folder, before anything is left out. -/
def found (p : Project) (d : Disk) (folder : Path) : Except Pattern.Error (List Path) := do
  return (← p.extensions.mapM fun ext => Search.files d (pattern folder ext)).flatten

/-- The path is found in the folder, whether or not it is left out. -/
def Finds (p : Project) (d : Disk) (folder q : Path) : Prop :=
  ∃ qs, p.found d folder = .ok qs ∧ q ∈ qs

/-- The file is among the sources that are collected from the folder. -/
def Selects (p : Project) (d : Disk) (folder : Path) (file : Place) : Prop :=
  ∃ qs, p.collect d [folder] = .ok qs ∧ ∃ q ∈ qs, d.locate q = .ok file

/-- Does a pattern describe the path, spelled as it is? -/
def describes (p : Project) (q : Path) : Bool := p.exclusions.any (·.describes q.text)

/-- What is found in a folder is collected, less what is left out. -/
theorem collect_folder (h : d.isFolder folder) : p.collect d [folder] =
    (do return sorted ((← (p.found d folder).mapError (.noPattern folder)).filter
      fun q => !p.isExcluded q)) := by
  rw [collect, List.mapM_cons, if_pos h, below, mapM_mapError, found]
  cases p.extensions.mapM fun ext => Search.files d (pattern folder ext) with
  | error => rfl
  | ok qs =>
    show Except.ok (sorted (qs.flatten.filter (fun q => !p.isExcluded q) ++ [])) = _
    rw [List.append_nil]
    rfl

theorem isOk_collect (h : d.isFolder folder) :
    (p.collect d [folder]).isOk = (p.found d folder).isOk := by
  rw [collect_folder h]
  cases p.found d folder <;> rfl

theorem isFile_of_mem_files {text : List Char} {qs : List Path}
    (h : Search.files d text = .ok qs) (hq : q ∈ qs) : d.isFile q := by
  unfold Search.files at h
  cases hparse : Pattern.parse text with
  | error =>
    rw [hparse] at h
    cases h
  | ok =>
    rw [hparse] at h
    dsimp only at h
    generalize (Search.pieces _).mapM Pattern.parse = patterns at h
    cases patterns with
    | error => cases h
    | ok patterns =>
      obtain rfl := Except.ok.inj h
      split at hq
      · exact absurd hq List.not_mem_nil
      · exact (List.mem_filter.1 hq).2

theorem Finds.isFile (h : p.Finds d folder q) : d.isFile q := by
  obtain ⟨qs, hqs, hq⟩ := h
  unfold found at hqs
  cases hmapM : p.extensions.mapM fun ext => Search.files d (pattern folder ext) with
  | error =>
    rw [hmapM] at hqs
    cases hqs
  | ok lists =>
    rw [hmapM] at hqs
    obtain rfl := Except.ok.inj hqs
    obtain ⟨qs, hqs, hq⟩ := List.mem_flatten.1 hq
    obtain ⟨ext, hfiles⟩ := exists_of_mem_mapM hmapM hqs
    exact isFile_of_mem_files hfiles hq

theorem selects_iff (h : d.isFolder folder) : p.Selects d folder file ↔
    ∃ q, p.Finds d folder q ∧ d.locate q = .ok file ∧ p.isExcluded q = false := by
  unfold Selects
  rw [collect_folder h]
  constructor
  · rintro ⟨qs, hqs, q, hq, hfile⟩
    cases hfound : p.found d folder with
    | error =>
      rw [hfound] at hqs
      cases hqs
    | ok found =>
      rw [hfound] at hqs
      obtain rfl := Except.ok.inj hqs
      obtain ⟨hmem, hexcluded⟩ := List.mem_filter.1 (mem_of_mem_sorted hq)
      exact ⟨q, ⟨found, hfound, hmem⟩, hfile, by simpa using hexcluded⟩
  · rintro ⟨q, ⟨found, hfound, hmem⟩, hfile, hexcluded⟩
    rw [hfound]
    have hkept : q ∈ found.filter fun q => !p.isExcluded q :=
      List.mem_filter.2 ⟨hmem, by rw [hexcluded]; rfl⟩
    obtain ⟨q', hq', hsteps⟩ := exists_mem_sorted hkept
    refine ⟨_, rfl, q', hq', ?_⟩
    -- Another spelling of the same steps may be kept, which leads to the same file.
    have hfinds : p.Finds d folder q' :=
      ⟨found, hfound, (List.mem_filter.1 (mem_of_mem_sorted hq')).1⟩
    obtain ⟨e, hentry, -⟩ := has_iff.1 hfinds.isFile
    obtain ⟨file', hfile', -⟩ := entry_eq_ok_iff.1 hentry
    rw [hfile', locate_eq_reach hfile', locate_eq_reach hfile, hsteps]

/-! ### What is left out -/

theorem isExcluded_of_plain (hp : p.root = pathOf root) (hroot : ∀ n ∈ root, IsName n)
    (hq : q.Plain) : p.isExcluded q = p.describes q := by
  rw [isExcluded, hp, hq.relativeTo?_eq hroot]
  rfl

theorem isExcluded_fromTop (hp : p.root = pathOf root) (hd : d.Sound)
    (hcurrent : d.current = root ++ inner) (hq : q.Plain) (hends : q.Ends) :
    p.isExcluded (d.fromTop q) = p.describes (q.beneath inner) := by
  have hnames := hd.names
  rw [hcurrent, List.forall_mem_append] at hnames
  have hseen := relativeTo?_fromTop hnames.1 (hq.beneath hnames.2) (hends.beneath hnames.2)
  rw [isExcluded, hp, Disk.fromTop, hcurrent, beneath_append, hseen]
  rfl

/-! ### Both spellings -/

section Folder

variable (hd : d.Sound) (hfolder : d.top.at? (d.current ++ place) = some (.folder es))
include hd hfolder

theorem isFolder_pathBelow : d.isFolder (pathBelow place) := by
  have hplace := (List.forall_mem_append.1 (hd.named.at? hfolder).2).2
  have hlocate := (spells_pathBelow d).locate_eq place es hfolder hplace
  exact has_iff.2 ⟨_, entry_eq_ok_iff.2 ⟨_, hlocate, hfolder⟩, rfl⟩

theorem isFolder_pathOf : d.isFolder (pathOf (d.current ++ place)) := by
  have hlocate := locate_pathOf hfolder (hd.named.at? hfolder).2
  exact has_iff.2 ⟨_, entry_eq_ok_iff.2 ⟨_, hlocate, hfolder⟩, rfl⟩

variable (hlone : d.Unmistakable (d.current ++ place))
include hlone

theorem likewise_found (p : Project) :
    Search.Likewise d (p.found d (pathBelow place)) (p.found d (pathOf (d.current ++ place))) := by
  unfold found
  induction p.extensions with
  | nil =>
    refine .ok (fun q hq => absurd hq List.not_mem_nil) fun q' => ?_
    simp
  | cons ext exts ih =>
    have hfiles := Search.likewise_files hd hfolder hlone ext
    rw [List.mapM_cons, List.mapM_cons]
    generalize Search.files d (pattern (pathBelow place) ext) = a at hfiles
    generalize Search.files d (pattern (pathOf (d.current ++ place)) ext) = a' at hfiles
    generalize (exts.mapM fun ext => Search.files d (pattern (pathBelow place) ext)) = b at ih
    generalize (exts.mapM fun ext =>
      Search.files d (pattern (pathOf (d.current ++ place)) ext)) = b' at ih
    cases hfiles with
    | error => exact .error _ _
    | @ok found found' plain mem_iff =>
      cases b with
      | error =>
        cases b' with
        | error => exact .error _ _
        | ok => cases ih
      | ok b =>
        cases b' with
        | error => cases ih
        | ok b' =>
          cases ih with
          | ok plains mem_iffs =>
            refine .ok (List.forall_mem_append.2 ⟨plain, plains⟩) fun q' => ?_
            show q' ∈ found' ++ b'.flatten ↔ ∃ q ∈ found ++ b.flatten, d.fromTop q = q'
            simp only [List.mem_append, mem_iff, mem_iffs, or_and_right, exists_or]

theorem Finds.plain (h : p.Finds d (pathBelow place) q) : q.Plain := by
  obtain ⟨qs, hqs, hq⟩ := h
  exact (likewise_found hd hfolder hlone p).plain_of_ok hqs q hq

theorem finds_pathOf_iff (q' : Path) : p.Finds d (pathOf (d.current ++ place)) q' ↔
    ∃ q, p.Finds d (pathBelow place) q ∧ d.fromTop q = q' := by
  have hlike := likewise_found hd hfolder hlone p
  unfold Finds
  generalize p.found d (pathBelow place) = a at hlike
  generalize p.found d (pathOf (d.current ++ place)) = a' at hlike
  cases hlike with
  | error => exact ⟨fun ⟨_, h, _⟩ => (nomatch h), fun ⟨_, ⟨_, h, _⟩, _⟩ => nomatch h⟩
  | @ok found found' plain mem_iff =>
    constructor
    · rintro ⟨qs, hqs, hq⟩
      obtain rfl := Except.ok.inj hqs
      obtain ⟨q, hq, hpath⟩ := (mem_iff q').1 hq
      exact ⟨q, ⟨found, rfl, hq⟩, hpath⟩
    · rintro ⟨q, ⟨qs, hqs, hq⟩, hpath⟩
      obtain rfl := Except.ok.inj hqs
      exact ⟨found', rfl, (mem_iff q').2 ⟨q, hq, hpath⟩⟩

end Folder

/-! ### Roots -/

theorem root_ofFile (d : Disk) (folder file : Path) : (ofFile d folder file).root = folder := by
  unfold ofFile
  split
  · unfold ofSettings
    split <;> rfl
  · rfl

/-- The root that is found is the current folder or one around it. -/
theorem exists_root_discover (d : Disk) :
    ∃ root inner, d.current = root ++ inner ∧ (discover d).root = pathOf root := by
  unfold discover
  dsimp only
  generalize hfound : d.around.findSome? _ = found
  cases found with
  | none => exact ⟨d.current, [], (List.append_nil _).symm, rfl⟩
  | some p =>
    obtain ⟨folder, hfolder, hp⟩ := List.exists_of_findSome?_eq_some hfound
    obtain ⟨n, -, rfl⟩ := List.mem_map.1 hfolder
    obtain ⟨file, -, rfl⟩ := Option.map_eq_some_iff.1 hp
    have hroot := root_ofFile d (pathOf (d.current.take n)) file
    exact ⟨d.current.take n, d.current.drop n, (List.take_append_drop n _).symm, hroot⟩

/-- The root of settings that are named by a path from the top is the folder they are in. -/
theorem root_load {settings : List Char} (hroot : ∀ n ∈ root, IsName n) (hname : IsName settings)
    (h : load d (pathOf (root ++ [settings])) = .ok p) : p.root = pathOf root := by
  unfold load at h
  rw [parent?_pathOf hroot hname] at h
  split at h
  · obtain rfl := Except.ok.inj h
    exact root_ofFile d _ _
  · cases h

/-- What is collected from a folder below the current one, named from there and from the top. -/
structure Respelled (p : Project) (d : Disk) (inner place : Place) : Prop where
  /-- Both spellings fail or neither does. -/
  isOk_eq : (p.collect d [pathOf (d.current ++ place)]).isOk =
    (p.collect d [pathBelow place]).isOk
  /-- Named from the current folder, the patterns are held against the way from there. -/
  below_iff : ∀ file, p.Selects d (pathBelow place) file ↔
    ∃ q, p.Finds d (pathBelow place) q ∧ d.locate q = .ok file ∧ p.describes q = false
  /-- Named from the top, they are held against the way from the root. -/
  top_iff : ∀ file, p.Selects d (pathOf (d.current ++ place)) file ↔
    ∃ q, p.Finds d (pathBelow place) q ∧ d.locate q = .ok file ∧
      p.describes (q.beneath inner) = false
  /-- The spelling makes no difference if it makes none to the patterns. -/
  selects_iff : (∀ q, p.Finds d (pathBelow place) q →
      p.describes (q.beneath inner) = p.describes q) →
    ∀ file, p.Selects d (pathOf (d.current ++ place)) file ↔ p.Selects d (pathBelow place) file

/-- The same files are found in a folder in both spellings, and what is left out is told by the way
to them, from the current folder or from the root. -/
theorem respelled_collect (hd : d.Sound) (hp : p.root = pathOf root)
    (hcurrent : d.current = root ++ inner)
    (hfolder : d.top.at? (d.current ++ place) = some (.folder es))
    (hlone : d.Unmistakable (d.current ++ place)) : p.Respelled d inner place := by
  have hroot : ∀ n ∈ root, IsName n :=
    (List.forall_mem_append.1 (hcurrent ▸ hd.names)).1
  have hbelow (file : Place) : p.Selects d (pathBelow place) file ↔
      ∃ q, p.Finds d (pathBelow place) q ∧ d.locate q = .ok file ∧ p.describes q = false := by
    rw [selects_iff (isFolder_pathBelow hd hfolder)]
    refine exists_congr fun q => and_congr_right fun hq => ?_
    rw [isExcluded_of_plain hp hroot (hq.plain hd hfolder hlone)]
  have htop (file : Place) : p.Selects d (pathOf (d.current ++ place)) file ↔
      ∃ q, p.Finds d (pathBelow place) q ∧ d.locate q = .ok file ∧
        p.describes (q.beneath inner) = false := by
    have hsame {q : Path} (hq : p.Finds d (pathBelow place) q) :
        d.locate (d.fromTop q) = d.locate q ∧
          p.isExcluded (d.fromTop q) = p.describes (q.beneath inner) := by
      have hplain := hq.plain hd hfolder hlone
      exact ⟨hd.locate_fromTop hplain,
        isExcluded_fromTop hp hd hcurrent hplain (ends_of_isFile hplain hq.isFile)⟩
    rw [selects_iff (isFolder_pathOf hd hfolder)]
    constructor
    · rintro ⟨q', hq', hfile, hexcluded⟩
      obtain ⟨q, hq, rfl⟩ := (finds_pathOf_iff hd hfolder hlone q').1 hq'
      exact ⟨q, hq, (hsame hq).1 ▸ hfile, (hsame hq).2 ▸ hexcluded⟩
    · rintro ⟨q, hq, hfile, hexcluded⟩
      exact ⟨d.fromTop q, (finds_pathOf_iff hd hfolder hlone _).2 ⟨q, hq, rfl⟩,
        (hsame hq).1 ▸ hfile, (hsame hq).2 ▸ hexcluded⟩
  refine ⟨?_, hbelow, htop, fun hagree file => ?_⟩
  · rw [isOk_collect (isFolder_pathOf hd hfolder), isOk_collect (isFolder_pathBelow hd hfolder),
      (likewise_found hd hfolder hlone p).isOk_eq]
  · rw [hbelow, htop]
    exact exists_congr fun q => and_congr_right fun hq => by rw [hagree q hq]

/-- The current folder is one that the project around it leaves out. -/
def leftOut : Disk where
  top := .folder [("w".toList, .folder [
    ("mpl.toml".toList, .file "[files]\nexclude = [\"sub/*\"]\n".toUTF8),
    ("sub".toList, .folder [("a.mpl".toList, .file ")".toUTF8)])])]
  current := ["w".toList, "sub".toList]

theorem sound_leftOut : leftOut.Sound where
  named := by
    refine .folder (by decide) (List.forall_mem_singleton.2 (.folder (by decide) ?_))
    refine List.forall_mem_cons.2 ⟨.file _, List.forall_mem_singleton.2 (.folder (by decide) ?_)⟩
    exact List.forall_mem_singleton.2 (.file _)
  current := ⟨_, rfl⟩

theorem unmistakable_leftOut : leftOut.Unmistakable (leftOut.current ++ []) := by
  intro front n back es hplace ⟨c, hc, hspecial⟩
  have hplain : (leftOut.current ++ []).all (·.all (· ∉ Pattern.specials)) := by decide
  have hn : n ∈ leftOut.current ++ [] := hplace ▸ List.mem_append_right front List.mem_cons_self
  have hall := List.all_eq_true.1 (List.all_eq_true.1 hplain n hn) c hc
  exact absurd hspecial (of_decide_eq_true hall)

theorem found_leftOut :
    (discover leftOut).found leftOut (pathBelow []) = .ok [⟨"a.mpl".toList⟩] := by
  have hfound : ((discover leftOut).found leftOut (pathBelow [])).toOption =
      some [⟨"a.mpl".toList⟩] := by decide +kernel
  revert hfound
  cases (discover leftOut).found leftOut (pathBelow []) with
  | error => exact (nomatch ·)
  | ok qs => exact fun hfound => congrArg Except.ok (Option.some.inj hfound)

/-- Named by a dot, the folder is checked, and named from the top, it is not. -/
theorem respelled_collect_leftOut :
    (discover leftOut).Respelled leftOut ["sub".toList] [] ∧
      (discover leftOut).Selects leftOut ⟨['.']⟩ ["w".toList, "sub".toList, "a.mpl".toList] ∧
      ¬ (discover leftOut).Selects leftOut ⟨"/w/sub".toList⟩
        ["w".toList, "sub".toList, "a.mpl".toList] := by
  have hroot : (discover leftOut).root = pathOf ["w".toList] := by decide +kernel
  have h := respelled_collect sound_leftOut hroot rfl rfl unmistakable_leftOut
  have hfinds : (discover leftOut).Finds leftOut (pathBelow []) ⟨"a.mpl".toList⟩ :=
    ⟨_, found_leftOut, List.mem_singleton_self _⟩
  refine ⟨h, (h.below_iff _).2 ⟨_, hfinds, by decide, by decide +kernel⟩, fun hselects => ?_⟩
  obtain ⟨q, ⟨qs, hqs, hq⟩, -, hdescribes⟩ := (h.top_iff _).1 hselects
  obtain rfl := Except.ok.inj (found_leftOut.symm.trans hqs)
  obtain rfl := List.mem_singleton.1 hq
  exact absurd hdescribes (by decide +kernel)

end Project

end MplWorkbench
