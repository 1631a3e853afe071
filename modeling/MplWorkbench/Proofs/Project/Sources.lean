import Mathlib.Data.List.TakeWhile
import MplWorkbench.Proofs.Project.Spelling
import MplWorkbench.Proofs.Project.Walk

/-! The sources in a folder.

Which files are sources is told twice. A path is one by its extension, which is
what follows the last dot of its name (`Project.isSource`). In a folder the names
are found that end in a dot and the text of an extension (`Project.below`). The two
agree on names with something before that dot, if the text has no further dot, and
if it has no character that stands for others in a pattern.

`Project.searched_below`: which files are found in a folder. -/
namespace MplWorkbench

open MplWorkbench.Path Disk

/-! ### Names with an extension -/

namespace Path

variable {q : Path} {n ext : List Char}

/-- An extension follows a dot that is not in front of the name. -/
theorem extension?_eq_some_iff (hq : q.fileName? = some n) :
    q.extension? = some ext ↔ '.' ∉ ext ∧ ∃ stem, stem ≠ [] ∧ n = stem ++ '.' :: ext := by
  rw [extension?, hq]
  dsimp only [bind, Option.bind]
  constructor
  · intro h
    split at h
    · next a b cs hback =>
      obtain rfl := Option.some.inj h
      have ha : a = '.' := by
        have hhead := List.head?_dropWhile_not (· != '.') n.reverse
        rw [hback] at hhead
        simpa using hhead
      subst ha
      refine ⟨fun hdot => ?_, (b :: cs).reverse, by simp, ?_⟩
      · have hne := List.mem_takeWhile_imp (List.mem_reverse.1 hdot)
        exact absurd hne (by decide)
      · have hback' := List.takeWhile_append_dropWhile (p := (· != '.')) (l := n.reverse)
        rw [hback] at hback'
        have hn := congrArg List.reverse hback'
        simpa using hn.symm
    · cases h
  · rintro ⟨hdot, stem, hstem, rfl⟩
    have hback : ∀ c ∈ ext.reverse, (c != '.') = true := fun c hc =>
      bne_iff_ne.2 fun h => hdot (h ▸ List.mem_reverse.1 hc)
    obtain ⟨b, cs, hstem⟩ := List.exists_cons_of_ne_nil (mt List.reverse_eq_nil_iff.1 hstem)
    rw [List.reverse_append, List.reverse_cons, List.append_assoc,
      List.dropWhile_append_of_pos hback, List.takeWhile_append_of_pos hback, hstem]
    simp

end Path

namespace Pattern

variable {n ext : List Char}

/-- Of these characters, each stands for itself in a pattern for a name. A bracket that closes
nothing does. -/
def IsPlain (text : List Char) : Prop := ∀ c ∈ text, c ∉ ['?', '*', '[', '/']

instance (text : List Char) : Decidable (IsPlain text) := List.decidableBAll ..

/-- All folders. -/
def folders : Pattern := ⟨['*', '*'], [.folders]⟩

/-- The names with an extension. -/
def named (ext : List Char) : Pattern :=
  ⟨'*' :: '.' :: ext, .anyRun :: .char '.' :: ext.map .char⟩

/-- The name ends in a dot and this text, case aside. -/
def EndsIn (n ext : List Char) : Prop := ('.' :: ext).map Char.toLower <:+ n.map Char.toLower

instance (n ext : List Char) : Decidable (EndsIn n ext) := inferInstanceAs (Decidable (_ <:+ _))

theorem tokensFrom_of_isPlain (h : IsPlain ext) (place : Nat) (before : Option Char) :
    tokensFrom place before ext = .ok (ext.map .char) := by
  induction ext generalizing place before with
  | nil => rw [tokensFrom, List.map_nil]
  | cons c cs ih =>
    obtain ⟨hc, hcs⟩ := List.forall_mem_cons.1 h
    have hc : c ∉ ['?', '*', '['] := mt (List.mem_append_left ['/']) hc
    rw [tokensFrom_cons (token_of_notMem hc place before cs), List.drop_zero, ih hcs]
    rfl

theorem tokensFrom_named (h : IsPlain ext) (place : Nat) (before : Option Char) :
    tokensFrom place before ('*' :: '.' :: ext) = .ok (named ext).tokens := by
  have hstar : token place before '*' ('.' :: ext) = .ok (.anyRun, 0) := rfl
  have hdotted : IsPlain ('.' :: ext) := List.forall_mem_cons.2 ⟨by decide, h⟩
  rw [tokensFrom_cons hstar, List.drop_zero, tokensFrom_of_isPlain hdotted]
  rfl

theorem parse_named (h : IsPlain ext) : parse ('*' :: '.' :: ext) = .ok (named ext) := by
  rw [parse, tokensFrom_named h]
  rfl

theorem spansFolders_named (ext : List Char) : (named ext).spansFolders = false := by
  simp [spansFolders, named]

theorem anyRest_iff {next : List Char → Bool} {cs : List Char} :
    anyRest next cs ↔ ∃ a b, cs = a ++ b ∧ next b := by
  induction cs with
  | nil => simp [anyRest]
  | cons c cs ih =>
    rw [anyRest, Bool.or_eq_true, ih]
    constructor
    · rintro (h | ⟨a, b, rfl, h⟩)
      · exact ⟨[], _, rfl, h⟩
      · exact ⟨c :: a, b, rfl, h⟩
    · rintro ⟨a, b, hcs, h⟩
      cases a with
      | nil => exact .inl (hcs ▸ h)
      | cons c' a => exact .inr ⟨a, b, (List.cons.inj hcs).2, h⟩

/-- The pattern for an extension describes the names that end so. -/
theorem describesFolded_named (n ext : List Char) :
    (named ext).describesFolded n ↔ EndsIn n ext := by
  rw [describesFolded_eq]
  show anyRest (accepts true (('.' :: ext).map .char)) n ↔ _
  simp only [anyRest_iff, accepts_map_iff fun c _ => admits_char c]
  constructor
  · rintro ⟨a, b, rfl, hb⟩
    exact ⟨a.map Char.toLower, by rw [← hb, List.map_append]⟩
  · rintro ⟨a, ha⟩
    obtain ⟨a', b', rfl, -, hb⟩ := List.map_eq_append_iff.1 ha.symm
    exact ⟨a', b', rfl, hb⟩

end Pattern

/-! ### The files below a folder -/

namespace Search

open Pattern

variable {d : Disk} {p q folder : Path} {n ext : List Char} {rel : Place} {place : Place}
  {es : List (List Char × Entry)} {bytes : ByteArray}

theorem slash_notMem (h : IsPlain ext) : '/' ∉ '*' :: '.' :: ext := fun hmem => by
  simp only [List.mem_cons, Char.reduceEq, false_or] at hmem
  exact h _ hmem (by decide)

theorem pieces_inside (h : IsPlain ext) :
    pieces (inside ext) = [['*', '*'], '*' :: '.' :: ext] := by
  have hsegments : segments (inside ext) = [['*', '*'], '*' :: '.' :: ext] :=
    (segments_append_slash ['*', '*'] _).trans
      (congrArg _ (segments_of_notMem (slash_notMem h)))
  rw [pieces, hsegments]
  rfl

theorem tokensFrom_inside (h : IsPlain ext) :
    tokensFrom 0 (some '/') (inside ext) = .ok (.folders :: (named ext).tokens) := by
  have hstars : token 0 (some '/') '*' ('*' :: '/' :: '*' :: '.' :: ext) = .ok (.folders, 2) := rfl
  show tokensFrom 0 (some '/') ('*' :: '*' :: '/' :: '*' :: '.' :: ext) = _
  rw [tokensFrom_cons hstars]
  show (tokensFrom (0 + 2 + 1) (some '/') ('*' :: '.' :: ext)).map _ = _
  rw [tokensFrom_named h]
  rfl

/-- The files that the pattern for an extension describes. -/
def withExtension (d : Disk) (folder : Path) (ext : List Char) : List Path :=
  (find d (startOf folder) ((wayOf folder).map literally ++ [folders, named ext])).filter d.isFile

/-- An extension without special characters makes a pattern. -/
theorem files_of_isPlain (hp : p.text ≠ []) (h : IsPlain ext) :
    files d (Project.pattern p ext) = .ok (withExtension d p ext) := by
  have hpattern : Project.pattern p ext = escape p.text ++ '/' :: inside ext :=
    List.append_assoc ..
  have hok := isOk_parse_escape p.text (inside ext)
  have hpatterns : (pieces (inside ext)).mapM Pattern.parse = .ok [folders, named ext] := by
    rw [pieces_inside h, List.mapM_cons, List.mapM_cons, parse_folders, parse_named h]
    rfl
  have hcollapse : collapse [folders, named ext] = [folders, named ext] := by
    rw [collapse, spansFolders_named, Bool.and_false, if_neg Bool.false_ne_true]
    rfl
  have hlast : ¬ (inside ext).getLast? == some '/' := fun hlast => by
    have happend : inside ext = ['*', '*', '/'] ++ '*' :: '.' :: ext := rfl
    rw [happend, List.getLast?_append_of_ne_nil _ (List.cons_ne_nil _ _)] at hlast
    exact slash_notMem h (List.mem_of_getLast? (eq_of_beq hlast))
  rw [files_pattern hp, hpatterns]
  rw [tokensFrom_inside h, ← hpattern] at hok
  cases hparse : Pattern.parse (Project.pattern p ext) with
  | error =>
    rw [hparse] at hok
    cases hok
  | ok =>
    show Except.ok _ = Except.ok _
    rw [if_neg hlast, hcollapse]
    rfl

/-! ### What is found there -/

/-- A file below the folder is found if its name ends in the extension. -/
theorem mem_withExtension_iff (hd : d.Sound) (hlocate : d.locate folder = .ok place)
    (hfolder : d.top.at? place = some (.folder es)) (hlost : isLost folder = false)
    (hat : d.top.at? (place ++ (rel ++ [n])) = some (.file bytes)) :
    within folder (rel ++ [n]) ∈ withExtension d folder ext ↔ EndsIn n ext := by
  have hstart := stands_within_nil hd hlocate hlost
  have hbelow := mem_below_within folder hfolder hat
  have hname := fileName?_of_mem_below (hd.named.at? hfolder).1 hstart.here_or
  have hisFile : d.isFile (within folder (rel ++ [n])) :=
    has_iff.2 ⟨_, (stands_within hd hlocate hlost hat).entry_eq hat, rfl⟩
  have hspans : folders.spansFolders := rfl
  rw [withExtension, List.mem_filter, mem_find_within hd hlocate hfolder hlost,
    find_of_folders_cons (literal?_of_spansFolders hspans) (hstart.entry_eq hfolder) hspans,
    List.mem_flatMap, ← describesFolded_named]
  constructor
  · rintro ⟨⟨x, hx, hq⟩, -⟩
    split at hq
    · next hdescribes =>
      obtain hq : _ = x.1 := List.mem_singleton.1 hq
      have hn : some x.2.1 = some n := (hname x hx).symm.trans (hq ▸ hname _ hbelow)
      exact Option.some.inj hn ▸ hdescribes
    · exact absurd hq List.not_mem_nil
  · intro hdescribes
    refine ⟨⟨_, hbelow, ?_⟩, hisFile⟩
    rw [if_pos hdescribes]
    exact List.mem_singleton_self _

end Search

/-! ### What is a source, and what is found -/

namespace Project

open Pattern

variable {p : Project} {d : Disk} {folder q : Path} {n ext known : List Char} {place rel : Place}
  {es : List (List Char × Entry)} {bytes : ByteArray} {qs : List Path}

/-- The name ends in a dot and the extension, as it does for a pattern. What is before the dot is
not empty, and there is no dot after it. -/
structure HasExtension (n ext : List Char) : Prop where
  endsIn : EndsIn n ext
  notMem : '.' ∉ ext
  length_lt : ext.length + 1 < n.length

theorem notMem_of_map_eq (h : known.map Char.toLower = ext.map Char.toLower) (hdot : '.' ∉ ext) :
    '.' ∉ known := by
  intro hmem
  have hlower : '.' ∈ ext.map Char.toLower := h ▸ List.mem_map_of_mem (f := Char.toLower) hmem
  obtain ⟨c, hc, hlower⟩ := List.mem_map.1 hlower
  exact hdot (eq_of_toLower_eq (by decide) hlower ▸ hc)

/-- A path has an extension if its name does, whatever the case. -/
theorem hasExtension_iff (hq : q.fileName? = some n) : HasExtension n known ↔
    ∃ ext, q.extension? = some ext ∧ known.map Char.toLower = ext.map Char.toLower := by
  constructor
  · rintro ⟨⟨a, ha⟩, hdot, hlength⟩
    obtain ⟨stem, back, rfl, rfl, hback⟩ := List.map_eq_append_iff.1 ha.symm
    obtain ⟨c, ext, rfl, hc, hext⟩ := List.map_eq_cons_iff.1 hback
    obtain rfl := eq_of_toLower_eq (by decide) hc
    refine ⟨ext, (extension?_eq_some_iff hq).2 ⟨notMem_of_map_eq hext hdot, stem, ?_, rfl⟩,
      hext.symm⟩
    rintro rfl
    have hsame := congrArg List.length hext
    simp only [List.length_map, List.nil_append, List.length_cons] at hsame hlength
    omega
  · rintro ⟨ext, hext, hlower⟩
    obtain ⟨hdot, stem, hstem, rfl⟩ := (extension?_eq_some_iff hq).1 hext
    refine ⟨⟨stem.map Char.toLower, ?_⟩, notMem_of_map_eq hlower hdot, ?_⟩
    · rw [List.map_append, List.map_cons, List.map_cons, hlower]
    · have hsame := congrArg List.length hlower
      have hpos := List.length_pos_of_ne_nil hstem
      simp only [List.length_map, List.length_append, List.length_cons] at hsame ⊢
      omega

theorem isSource_iff (hq : q.fileName? = some n) : p.isSource q ↔
    (∃ ext ∈ p.extensions, HasExtension n ext) ∧ p.isExcluded q = false := by
  rw [isSource, Bool.and_eq_true, Bool.not_eq_true', Option.any_eq_true]
  simp only [List.any_eq_true, beq_iff_eq, hasExtension_iff hq]
  refine and_congr_left fun _ => ⟨?_, ?_⟩
  · rintro ⟨ext, hext, known, hknown, hlower⟩
    exact ⟨known, hknown, ext, hext, hlower⟩
  · rintro ⟨known, hknown, ext, hext, hlower⟩
    exact ⟨ext, hext, known, hknown, hlower⟩

/-- The sources in a folder, if each extension makes a pattern. -/
def sourcesIn (p : Project) (d : Disk) (folder : Path) : List Path :=
  (p.extensions.map (Search.withExtension d folder)).flatten.filter fun q => !p.isExcluded q

theorem below_of_isPlain (hp : folder.text ≠ []) (hplain : ∀ ext ∈ p.extensions, IsPlain ext) :
    p.below d folder = .ok (p.sourcesIn d folder) := by
  have hfiles : ∀ ext ∈ p.extensions,
      (Search.files d (pattern folder ext)).mapError (Failure.noPattern folder) =
        .ok (Search.withExtension d folder ext) := fun ext hext => by
    rw [Search.files_of_isPlain hp (hplain ext hext)]
    rfl
  rw [below, mapM_eq_ok hfiles]
  rfl

theorem mem_sourcesIn_iff : q ∈ p.sourcesIn d folder ↔
    (∃ ext ∈ p.extensions, q ∈ Search.withExtension d folder ext) ∧ p.isExcluded q = false := by
  rw [sourcesIn, List.mem_filter, ← List.flatMap_def, List.mem_flatMap, Bool.not_eq_true']

/-- Whether a file is found by its path, and whether it is a source by it. -/
structure Judges (p : Project) (qs : List Path) (q : Path) (n : List Char) : Prop where
  mem_iff : q ∈ qs ↔ (∃ ext ∈ p.extensions, EndsIn n ext) ∧ p.isExcluded q = false
  isSource_iff : p.isSource q ↔ (∃ ext ∈ p.extensions, HasExtension n ext) ∧ p.isExcluded q = false
  mem_of_isSource : p.isSource q → q ∈ qs
  mem_iff_isSource :
    (∀ ext ∈ p.extensions, '.' ∉ ext ∧ n.map Char.toLower ≠ ('.' :: ext).map Char.toLower) →
      (q ∈ qs ↔ p.isSource q)

theorem judges (hmem : q ∈ qs ↔ (∃ ext ∈ p.extensions, EndsIn n ext) ∧ p.isExcluded q = false)
    (hq : q.fileName? = some n) : p.Judges qs q n where
  mem_iff := hmem
  isSource_iff := isSource_iff hq
  mem_of_isSource h := by
    obtain ⟨⟨ext, hext, hends⟩, hexcluded⟩ := (isSource_iff hq).1 h
    exact hmem.2 ⟨⟨ext, hext, hends.endsIn⟩, hexcluded⟩
  mem_iff_isSource h := by
    rw [hmem, isSource_iff hq]
    refine and_congr_left fun _ => exists_congr fun ext => and_congr_right fun hext => ?_
    refine ⟨fun hends => ⟨hends, (h ext hext).1, ?_⟩, (·.endsIn)⟩
    have hlength := hends.length_le
    have hne := mt hends.eq_of_length (Ne.symm (h ext hext).2)
    simp only [List.length_map, List.length_cons] at hlength hne
    omega

/-- What a search in a folder finds of the files below it: nothing if it is lost on the way there,
and else what their names tell. -/
structure Searched (p : Project) (d : Disk) (folder : Path) (place : Place) (qs : List Path) :
    Prop where
  eq_nil_of_isLost : Search.isLost folder → qs = []
  located : Search.isLost folder = false → ∀ rel n bytes,
    d.top.at? (place ++ (rel ++ [n])) = some (.file bytes) →
      d.locate (Search.within folder (rel ++ [n])) = .ok (place ++ (rel ++ [n]))
  judges : Search.isLost folder = false → ∀ rel n bytes,
    d.top.at? (place ++ (rel ++ [n])) = some (.file bytes) →
      p.Judges qs (Search.within folder (rel ++ [n])) n

/-- A folder is searched for extensions without special characters. A file below it is found if its
name ends in a dot and one of them, and nothing leaves it out. So all sources are found, and other
files only if there is nothing in their names before the dot, or a dot in the extension. -/
theorem searched_below (hd : d.Sound) (hlocate : d.locate folder = .ok place)
    (hfolder : d.top.at? place = some (.folder es)) (hplain : ∀ ext ∈ p.extensions, IsPlain ext) :
    ∃ qs, p.below d folder = .ok qs ∧ p.collect d [folder] = .ok (sorted qs) ∧
      p.Searched d folder place qs := by
  have hne : folder.text ≠ [] := fun hnil => by simp [locate, hnil] at hlocate
  have hisFolder : d.isFolder folder := has_iff.2 ⟨_, entry_eq_ok_iff.2 ⟨_, hlocate, hfolder⟩, rfl⟩
  have hbelow := below_of_isPlain (d := d) hne hplain
  refine ⟨_, hbelow, ?_, ?_, ?_, ?_⟩
  · rw [collect, List.mapM_cons, if_pos hisFolder, hbelow]
    show Except.ok (sorted (_ ++ [])) = _
    rw [List.append_nil]
  · refine fun hlost => List.eq_nil_iff_forall_not_mem.2 fun q hq => ?_
    obtain ⟨⟨ext, -, hfound⟩, -⟩ := mem_sourcesIn_iff.1 hq
    rw [Search.withExtension, Search.find_of_lost hlost] at hfound
    exact absurd hfound List.not_mem_nil
  · exact fun hlost rel n bytes hat => (Search.stands_within hd hlocate hlost hat).locate_eq
  · intro hlost rel n bytes hat
    have hstart := Search.stands_within_nil hd hlocate hlost
    have hname := Search.fileName?_of_mem_below (hd.named.at? hfolder).1 hstart.here_or _
      (Search.mem_below_within folder hfolder hat)
    refine Project.judges (mem_sourcesIn_iff.trans ?_) hname
    refine and_congr_left fun _ => exists_congr fun ext => and_congr_right fun _ => ?_
    exact Search.mem_withExtension_iff hd hlocate hfolder hlost hat

/-- A file that is named like an extension, and one below with its extension in capitals. -/
def capitals : Disk where
  top := .folder [("w".toList, .folder [
    (".mpl".toList, .file ")".toUTF8),
    ("sub".toList, .folder [("A.MPL".toList, .file ")".toUTF8)])])]
  current := ["w".toList]

theorem sound_capitals : capitals.Sound where
  named := by
    refine .folder (by decide) (List.forall_mem_singleton.2 (.folder (by decide) ?_))
    refine List.forall_mem_cons.2 ⟨.file _, List.forall_mem_singleton.2 (.folder (by decide) ?_)⟩
    exact List.forall_mem_singleton.2 (.file _)
  current := ⟨_, rfl⟩

/-- Both files are found in the current folder, and only the one below is a source. -/
theorem searched_below_capitals : ∃ qs, (discover capitals).below capitals ⟨['.']⟩ = .ok qs ∧
    (discover capitals).Searched capitals ⟨['.']⟩ ["w".toList] qs ∧
    (⟨"sub/A.MPL".toList⟩ ∈ qs ∧ (discover capitals).isSource ⟨"sub/A.MPL".toList⟩) ∧
    ⟨".mpl".toList⟩ ∈ qs ∧ (discover capitals).isSource ⟨".mpl".toList⟩ = false := by
  have hplain : ∀ ext ∈ (discover capitals).extensions, IsPlain ext := by decide +kernel
  have hlocate : capitals.locate ⟨['.']⟩ = .ok ["w".toList] := rfl
  obtain ⟨qs, hqs, -, h⟩ := searched_below sound_capitals hlocate rfl hplain
  have hsource : (discover capitals).isSource ⟨"sub/A.MPL".toList⟩ := by decide +kernel
  have hbelow := h.judges (by decide) ["sub".toList] "A.MPL".toList _ rfl
  have hhere := h.judges (by decide) [] ".mpl".toList _ rfl
  refine ⟨qs, hqs, h, ⟨hbelow.mem_of_isSource hsource, hsource⟩, ?_, by decide +kernel⟩
  exact hhere.mem_iff.2 ⟨by decide +kernel, by decide +kernel⟩

end Project

end MplWorkbench
