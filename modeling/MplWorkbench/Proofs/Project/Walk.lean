import MplWorkbench.Proofs.Project.Folder

/-! Searching a folder by any path of it.

A search for the files of a folder goes along the path of the folder, one segment
after the other (`Search.Stands.mem_find`). A name with a special character is
looked for without regard to case, and may lead into other folders too; but all that
is found there is spelled another way. So of what is spelled as the folder is, the
search finds what it finds in the folder (`Search.mem_find_within`).

A path may begin with dots and then have an empty segment, as `./` does. A search
for it is lost (`Search.find_of_lost`): it drops the dots, and then looks for an
empty path. -/
namespace MplWorkbench

open MplWorkbench.Path
open MplWorkbench.Search (startOf wayOf)

/-! ### Paths that lead away from the current folder -/

namespace Path

variable {p : Path} {n : List Char}

/-- The path begins at the top, or leaves the current folder at once. -/
def Away (p : Path) : Prop := p.isAbsolute ∨ p.Plain

theorem exists_fromTop (h : p.isAbsolute) : ∃ text, p = fromTop ⟨text⟩ := by
  obtain ⟨text, htext⟩ := List.head?_eq_some_iff.1 (eq_of_beq h)
  exact ⟨text, congrArg Path.mk htext⟩

theorem Plain.wayOf_eq (h : p.Plain) : wayOf p = segments p.text := by
  rw [wayOf, h.isAbsolute_eq, if_neg Bool.false_ne_true]

theorem Away.text_ne (h : p.Away) : p.text ≠ [] := by
  rcases h with h | h
  · obtain ⟨text, rfl⟩ := exists_fromTop h
    exact List.cons_ne_nil _ _
  · exact h.text_ne

theorem Away.isHere_eq (h : p.Away) : p.isHere = false := by
  rcases h with h | h
  · obtain ⟨text, rfl⟩ := exists_fromTop h
    exact isHere_fromTop ⟨text⟩
  · exact h.isHere_eq

theorem prefix_child (p : Path) (n : List Char) : p.text <+: (p.child n).text := by
  unfold child
  split <;> exact List.prefix_append _ _

theorem isAbsolute_child (h : p.text ≠ []) (n : List Char) :
    (p.child n).isAbsolute = p.isAbsolute := by
  rw [child_eq h]
  show ((p.text ++ _).head? == _) = _
  rw [List.head?_append_of_ne_nil _ h]
  rfl

theorem Away.child (h : p.Away) (n : List Char) : (p.child n).Away := by
  refine h.imp (fun h' => ?_) (·.child n)
  rw [isAbsolute_child h.text_ne]
  exact h'

/-- A name in a folder is the last segment of its path. A slash at the end of the path of the folder
is not doubled. -/
theorem Away.wayOf_child (h : p.Away) (hn : '/' ∉ n) : ∃ ss,
    wayOf (p.child n) = ss ++ [n] ∧ (wayOf p = ss ∨ wayOf p = ss ++ [[]]) := by
  have hway {p : Path} (hp : p.text ≠ []) : ∃ ss,
      segments (p.child n).text = ss ++ [n] ∧
        (segments p.text = ss ∨ segments p.text = ss ++ [[]]) := by
    obtain ⟨text, hchild, htext⟩ := exists_text_child hp n
    refine ⟨segments text, ?_, ?_⟩
    · rw [hchild, segments_append_slash, segments_of_notMem hn]
    · refine htext.imp (congrArg segments) fun htext => ?_
      rw [htext, segments_append_slash]
      rfl
  rcases h with h | h
  · obtain ⟨text, rfl⟩ := exists_fromTop h
    by_cases htext : text = []
    · subst htext
      exact ⟨[], segments_of_notMem hn, .inr rfl⟩
    · have hchild : (fromTop ⟨text⟩).child n = ((Path.mk text).child n).fromTop :=
        fromTop_child (p := ⟨text⟩) htext [] n
      rw [hchild]
      exact hway (p := ⟨text⟩) htext
  · rw [h.wayOf_eq, (h.child n).wayOf_eq]
    exact hway h.text_ne

theorem Away.steps_eq (h : p.Away) :
    p.steps = (if p.isAbsolute then [.top] else []) ++ (wayOf p).filterMap Step.ofSegment? := by
  rcases h with h | h
  · rw [if_pos h]
    obtain ⟨text, rfl⟩ := exists_fromTop h
    exact steps_fromTop ⟨text⟩
  · rw [h.isAbsolute_eq, if_neg Bool.false_ne_true, h.steps_eq, h.wayOf_eq]
    rfl

theorem Away.fileName?_child (h : p.Away) (hn : IsName n) : (p.child n).fileName? = some n := by
  obtain ⟨ss, hway, -⟩ := h.wayOf_child hn.1
  rw [fileName?, (h.child n).steps_eq, hway, List.filterMap_append, List.filterMap_cons, hn.2,
    List.filterMap_nil, ← List.append_assoc, List.getLast?_concat]

end Path

/-! ### Following a path -/

namespace Disk

variable {d : Disk} {p : Path} {place place' : Place} {n : List Char} {ss : List (List Char)}
  {es : List (List Char × Entry)}

theorem follow_append_eq (d : Disk) (place : Place) (a b : List (List Char)) :
    d.follow place (a ++ b) = (d.follow place a).bind (d.follow · b) := by
  induction a generalizing place with
  | nil => rfl
  | cons s ss ih =>
    rw [List.cons_append, follow, follow]
    split
    · rfl
    · rfl
    · split
      · exact ih place
      · exact ih place.dropLast
      · split
        · exact ih _
        · rfl

theorem exists_of_follow_append {a b : List (List Char)}
    (h : d.follow place (a ++ b) = .ok place') :
    ∃ mid, d.follow place a = .ok mid ∧ d.follow mid b = .ok place' := by
  rw [follow_append_eq] at h
  cases hmid : d.follow place a with
  | error =>
    rw [hmid] at h
    cases h
  | ok mid =>
    rw [hmid] at h
    exact ⟨mid, rfl, h⟩

/-- Where the path of a folder begins. -/
def base (d : Disk) (p : Path) : Place := if p.isAbsolute then [] else d.current

theorem locate_eq_follow (h : p.text ≠ []) : d.locate p = d.follow (d.base p) (wayOf p) := by
  unfold locate
  split
  · contradiction
  · next rest htext =>
    obtain rfl : p = Path.fromTop ⟨rest⟩ := by rw [Path.fromTop, ← htext]
    rfl
  · next hne hslash =>
    have hrelative : p.isAbsolute = false := beq_false_of_ne fun habsolute => by
      obtain ⟨rest, hrest⟩ := List.head?_eq_some_iff.1 habsolute
      exact hslash rest hrest
    rw [base, wayOf, hrelative, if_neg Bool.false_ne_true, if_neg Bool.false_ne_true]

theorem locate_child (hp : p.Away) (hlocate : d.locate p = .ok place) (hn : '/' ∉ n) :
    d.locate (p.child n) = d.follow place [n] := by
  obtain ⟨ss, hchild, hway⟩ := hp.wayOf_child hn
  have hbase : d.base (p.child n) = d.base p := by rw [base, isAbsolute_child hp.text_ne]; rfl
  rw [locate_eq_follow hp.text_ne] at hlocate
  rw [locate_eq_follow (hp.child n).text_ne, hbase, hchild, follow_append_eq]
  rcases hway with hway | hway
  · rw [← hway, hlocate]
    rfl
  · obtain ⟨mid, hmid, hlocate⟩ := exists_of_follow_append (hway ▸ hlocate)
    obtain ⟨-, taken, htaken, hlocate⟩ := exists_of_follow_cons hlocate
    obtain rfl : none = taken := htaken
    obtain rfl := Except.ok.inj hlocate
    rw [hmid]
    rfl

/-- The way to a folder goes through folders. -/
theorem folder_of_follow (h : d.follow place ss = .ok place')
    (hfolder : d.top.at? place' = some (.folder es)) :
    ∃ es', d.top.at? place = some (.folder es') := by
  cases ss with
  | nil => exact ⟨es, Except.ok.inj h ▸ hfolder⟩
  | cons s ss => exact (exists_of_follow_cons h).1

/-- A name that is followed stands in the folder. -/
theorem exists_mem_of_follow (hn : IsName n) (hfolder : d.top.at? place = some (.folder es))
    (h : d.follow place [n] = .ok place') : place' = place ++ [n] ∧ ∃ e, (n, e) ∈ es := by
  rw [follow, hfolder, hn.2] at h
  change (if (es.lookup n).isSome then _ else _) = _ at h
  split at h
  · next hlookup =>
    obtain ⟨e, he⟩ := Option.isSome_iff_exists.1 hlookup
    exact ⟨(Except.ok.inj h).symm, e, Entry.mem_of_lookup he⟩
  · cases h

theorem follow_of_at? {e : Entry} (hd : d.Sound)
    (hat : d.top.at? (place ++ (rel ++ [n])) = some e) :
    d.follow place (rel ++ [n]) = .ok (place ++ (rel ++ [n])) := by
  have hnames := (List.forall_mem_append.1 (hd.named.at? hat).2).2
  obtain ⟨hrel, hn⟩ := List.forall_mem_append.1 hnames
  rw [← List.append_assoc, Entry.at?_append] at hat
  obtain ⟨inner, hinner, hat⟩ := Option.bind_eq_some_iff.1 hat
  cases inner with
  | file => cases hat
  | folder es =>
    rw [follow_append hinner hrel, follow, hinner, (List.forall_mem_singleton.1 hn).2]
    simp only [Entry.isSome_lookup_of_at? hat, if_true]
    rw [List.append_assoc]
    rfl

end Disk

/-! ### Searching along a path -/

namespace Search

open Disk Pattern

variable {d : Disk} {p q : Path} {place place' : Place} {n : List Char} {ss : List (List Char)}
  {ps rest : List Pattern} {es : List (List Char × Entry)}

theorem inFolder_of_away (h : p.Away) (n : List Char) : inFolder p n = p.child n := by
  rw [inFolder, h.isHere_eq, if_neg Bool.false_ne_true]

theorem inFolder_here_eq (n : List Char) : inFolder ⟨['.']⟩ n = ⟨n⟩ := if_pos (by decide)

theorem away_inFolder (h : p.Away) (n : List Char) : (inFolder p n).Away :=
  inFolder_of_away h n ▸ h.child n

/-- What has a name is away from the current folder, even in that. -/
theorem away_of_isName (hp : p = ⟨['.']⟩ ∨ p.Away) (hn : IsName n) : (inFolder p n).Away := by
  rcases hp with rfl | hp
  · rw [inFolder_here_eq]
    exact .inr ⟨n, [], segments_of_notMem hn.1, hn.isIdle⟩
  · exact away_inFolder hp n

theorem prefix_inFolder (h : p.Away) (n : List Char) : p.text <+: (inFolder p n).text :=
  inFolder_of_away h n ▸ prefix_child p n

/-- All below an entry is spelled as that is, and goes on. -/
theorem below_of_away (e : Entry) (h : p.Away) :
    ∀ x ∈ below p e, x.1.Away ∧ p.text <+: x.1.text := by
  refine below.induct (fun p e => p.Away → ∀ x ∈ below p e, x.1.Away ∧ p.text <+: x.1.text)
    (fun p es => p.Away → ∀ x ∈ belowAll p es, x.1.Away ∧ p.text <+: x.1.text)
    ?file ?folder ?nil ?cons p e h
  case file => exact fun p bytes _ x hx => absurd hx List.not_mem_nil
  case folder => exact fun p es ih h => ih h
  case nil => exact fun p _ x hx => absurd hx List.not_mem_nil
  case cons =>
    intro p n e es ihe ihes h
    have hn := prefix_inFolder h n
    rw [belowAll, List.forall_mem_cons, List.forall_mem_append]
    refine ⟨⟨away_inFolder h n, hn⟩, fun x hx => ?_, ihes h⟩
    obtain ⟨hx, hbegins⟩ := ihe (away_inFolder h n) x hx
    exact ⟨hx, hn.trans hbegins⟩

/-- All that is found from a path on is spelled as that is. -/
theorem prefix_of_mem_find (hp : p.Away) (h : q ∈ find d p ps) : p.text <+: q.text := by
  induction hlength : ps.length using Nat.strongRecOn generalizing p ps with
  | ind k ih =>
    cases ps with
    | nil => exact List.mem_singleton.1 h ▸ List.prefix_refl _
    | cons piece rest =>
      have hrest {next : Path} (hnext : next.Away) (hbegins : p.text <+: next.text)
          (h : q ∈ find d next rest) : p.text <+: q.text :=
        hbegins.trans (ih rest.length (hlength ▸ Nat.lt_succ_self _) hnext h rfl)
      have hname (n : List Char) (h : q ∈ find d (inFolder p n) rest) : p.text <+: q.text :=
        hrest (away_inFolder hp n) (prefix_inFolder hp n) h
      cases hliteral : piece.literal? with
      | some n =>
        rw [find_of_literal hliteral] at h
        split at h <;> split at h
        · exact hname n h
        · exact absurd h List.not_mem_nil
        · exact hname n h
        · exact absurd h List.not_mem_nil
      | none =>
        cases hentry : d.entry p with
        | error =>
          rw [find_of_error hliteral hentry] at h
          exact absurd h List.not_mem_nil
        | ok e =>
          by_cases hspans : piece.spansFolders
          · cases rest with
            | nil =>
              rw [find_of_folders_nil hliteral hentry hspans] at h
              obtain ⟨x, hx, hq⟩ := List.mem_filterMap.1 h
              obtain ⟨-, hq⟩ := Option.ite_none_right_eq_some.1 hq
              exact Option.some.inj hq ▸ (below_of_away e hp x hx).2
            | cons next rest =>
              rw [find_of_folders_cons hliteral hentry hspans] at h
              obtain ⟨x, hx, h⟩ := List.mem_flatMap.1 h
              obtain ⟨haway, hbegins⟩ := below_of_away e hp x hx
              split at h
              · have hlt : rest.length < k := by
                  rw [← hlength]
                  simp only [List.length_cons]
                  omega
                exact hbegins.trans (ih rest.length hlt haway h rfl)
              · exact absurd h List.not_mem_nil
          · rw [find_of_names hliteral hentry hspans, List.mem_append, List.mem_flatMap,
              List.mem_flatMap] at h
            rcases h with ⟨n, -, h⟩ | ⟨x, -, h⟩
            · exact hrest (hp.child n) (prefix_child p n) h
            · split at h
              · exact hname x.1 h
              · exact absurd h List.not_mem_nil

/-- The path leads to the place, and begins at the top, at the current folder, or below that. -/
structure Stands (d : Disk) (p : Path) (place : Place) : Prop where
  locate_eq : d.locate p = .ok place
  here_or : p = ⟨['.']⟩ ∨ p.Away

theorem stands_start (hd : d.Sound) (p : Path) : Stands d (startOf p) (d.base p) := by
  obtain ⟨es, hcurrent⟩ := hd.current
  unfold startOf base
  split
  · obtain ⟨es, htop, -⟩ := Entry.exists_folder_of_append (a := []) hcurrent
    refine ⟨?_, .inr (.inl rfl)⟩
    show d.follow [] [[]] = _
    rw [follow, htop]
    rfl
  · refine ⟨?_, .inl rfl⟩
    show d.follow d.current [['.']] = _
    rw [follow, hcurrent]
    rfl

/-- Something in a folder is where its name leads to from there. -/
theorem Stands.inFolder (h : Stands d p place) (hn : '/' ∉ n) (hne : p = ⟨['.']⟩ → n ≠ [])
    (hfollow : d.follow place [n] = .ok place') : Stands d (inFolder p n) place' := by
  rcases h.here_or with rfl | haway
  · have hhere : d.follow d.current [['.']] = .ok place := h.locate_eq
    obtain ⟨-, taken, htaken, hplace⟩ := exists_of_follow_cons hhere
    obtain rfl : none = taken := htaken
    obtain rfl := Except.ok.inj hplace
    have hne := hne rfl
    have hslash (rest : List Char) : n ≠ '/' :: rest := fun hrest =>
      hn (hrest ▸ List.mem_cons_self)
    rw [inFolder_here_eq]
    constructor
    · have hrelative : (Path.mk n).isAbsolute = false := beq_false_of_ne fun habsolute => by
        obtain ⟨rest, hrest⟩ := List.head?_eq_some_iff.1 habsolute
        exact hslash rest hrest
      rw [locate_eq_follow (p := ⟨n⟩) hne, base, wayOf, hrelative, if_neg Bool.false_ne_true,
        if_neg Bool.false_ne_true, segments_of_notMem hn]
      exact hfollow
    · rcases plain_or (p := ⟨n⟩) hne hslash with hplain | ⟨ss, hss⟩
      · exact .inr (.inr hplain)
      · rw [segments_of_notMem hn] at hss
        exact .inl (congrArg Path.mk (List.cons.inj hss).1)
  · rw [inFolder_of_away haway]
    exact ⟨(locate_child haway h.locate_eq hn).trans hfollow, .inr (haway.child n)⟩

theorem Stands.entry_eq {e : Entry} (h : Stands d p place) (hat : d.top.at? place = some e) :
    d.entry p = .ok e := entry_eq_ok_iff.2 ⟨place, h.locate_eq, hat⟩

theorem isName_of_special (hn : '/' ∉ n) (h : ∃ c ∈ n, c ∈ specials) : IsName n := by
  obtain ⟨c, hc, hspecial⟩ := h
  refine ⟨hn, ?_⟩
  unfold Step.ofSegment?
  split
  · exact absurd hc List.not_mem_nil
  · rw [List.mem_singleton.1 hc] at hspecial
    exact absurd hspecial (by decide)
  · obtain rfl : c = '.' := by simpa using hc
    exact absurd hspecial (by decide)
  · rfl

/-- Two names of one length, after which paths go on alike, are one. -/
theorem eq_of_prefix {n m : List Char} (hlength : m.length = n.length)
    (hn : (inFolder p n).text <+: q.text) (hm : (inFolder p m).text <+: q.text) : m = n := by
  have hsame : (inFolder p m).text = (inFolder p n).text := by
    refine (List.prefix_of_prefix_length_le hm hn ?_).eq_of_length ?_ <;>
      unfold Search.inFolder Path.child <;> repeat' split <;> simp [hlength]
  unfold Search.inFolder Path.child at hsame
  repeat' split at hsame
  all_goals simpa using hsame

/-- A search for a segment goes on from where it leads to, for what is spelled so. -/
theorem Stands.mem_find (hd : d.Sound) (h : Stands d p place)
    (hfolder : d.top.at? place = some (.folder es)) (hn : '/' ∉ n) (hne : p = ⟨['.']⟩ → n ≠ [])
    (hfollow : d.follow place [n] = .ok place') (hplace' : (d.top.at? place').isSome)
    (hq : (Search.inFolder p n).Away → (Search.inFolder p n).text <+: q.text) :
    q ∈ find d p (literally n :: rest) ↔ q ∈ find d (Search.inFolder p n) rest := by
  obtain ⟨e, hat⟩ := Option.isSome_iff_exists.1 hplace'
  have hentry := (h.inFolder hn hne hfollow).entry_eq hat
  by_cases hspecial : ∃ c ∈ n, c ∈ specials
  · have hname := isName_of_special hn hspecial
    obtain ⟨-, hmem⟩ := exists_mem_of_follow hname hfolder hfollow
    refine mem_find_literally hname (h.entry_eq hfolder) (hentry ▸ rfl) hmem
      fun _ x hx hfold hfound => ?_
    have hx : IsName x.1 := by
      cases (hd.named.at? hfolder).1 with
      | folder hnames => exact hnames x hx
    have hlength : x.1.length = n.length := by
      simpa using congrArg List.length hfold
    exact eq_of_prefix hlength (hq (away_of_isName h.here_or hname))
      (prefix_of_mem_find (away_of_isName h.here_or hx) hfound)
  · have hliteral := literal?_of_plain fun c hc hc' => hspecial ⟨c, hc, hc'⟩
    have hisFolder : d.isFolder p := has_iff.2 ⟨_, h.entry_eq hfolder, rfl⟩
    rw [find_of_literal hliteral, if_pos hisFolder, hentry]
    split
    · rfl
    · rfl

/-! ### The whole path -/

/-- The dots that a path begins with are followed by an empty segment. -/
def isLost (p : Path) : Bool :=
  !p.isAbsolute && ((segments p.text).dropWhile (· == ['.'])).head? == some []

/-- In the current folder, an empty segment is no name to go on with. -/
def Keeps (p : Path) (ss : List (List Char)) : Prop :=
  p = ⟨['.']⟩ → (ss.dropWhile (· == ['.'])).head? ≠ some []

theorem keeps_of_isName {ss : List (List Char)} (hss : ∀ n ∈ ss, IsName n) : Keeps p ss := by
  intro _ hhead
  have hmem := (List.dropWhile_suffix _).subset (List.mem_of_head? hhead)
  exact absurd (hss [] hmem).2 (by decide)

theorem prefix_foldl (h : p.Away) (ss : List (List Char)) :
    (ss.foldl inFolder p).Away ∧ p.text <+: (ss.foldl inFolder p).text := by
  induction ss generalizing p with
  | nil => exact ⟨h, List.prefix_refl _⟩
  | cons n ss ih =>
    obtain ⟨haway, hbegins⟩ := ih (away_inFolder h n)
    exact ⟨haway, (prefix_inFolder h n).trans hbegins⟩

theorem Keeps.ne_nil (hkeeps : Keeps p (n :: ss)) (hp : p = ⟨['.']⟩) : n ≠ [] := by
  rintro rfl
  exact hkeeps hp rfl

theorem Stands.keeps (h : Stands d p place) (hkeeps : Keeps p (n :: ss)) :
    Keeps (Search.inFolder p n) ss := by
  intro hnext
  rcases h.here_or with rfl | haway
  · rw [inFolder_here_eq] at hnext
    obtain rfl : n = ['.'] := congrArg Path.text hnext
    exact hkeeps rfl
  · have haway := Search.away_inFolder haway n
    rw [hnext] at haway
    exact absurd haway.isHere_eq (by decide)

/-- What segments lead to is where they are followed to. -/
theorem Stands.foldl (h : Stands d p place) (hss : ∀ n ∈ ss, '/' ∉ n) (hkeeps : Keeps p ss)
    (hfollow : d.follow place ss = .ok place') :
    Stands d (ss.foldl Search.inFolder p) place' := by
  induction ss generalizing p place with
  | nil => exact Except.ok.inj hfollow ▸ h
  | cons n ss ih =>
    obtain ⟨hn, hss⟩ := List.forall_mem_cons.1 hss
    obtain ⟨mid, hmid, hfollow⟩ := exists_of_follow_append (a := [n]) hfollow
    exact ih (h.inFolder hn (hkeeps.ne_nil) hmid) hss (h.keeps hkeeps) hfollow

/-- A search for segments goes on from where they lead to, for what is spelled so. -/
theorem Stands.mem_find_foldl (hd : d.Sound) (h : Stands d p place) (hss : ∀ n ∈ ss, '/' ∉ n)
    (hkeeps : Keeps p ss) (hfollow : d.follow place ss = .ok place')
    (hfolder : d.top.at? place' = some (.folder es))
    (hq : (ss.foldl Search.inFolder p).Away → (ss.foldl Search.inFolder p).text <+: q.text) :
    q ∈ find d p (ss.map literally ++ rest) ↔ q ∈ find d (ss.foldl Search.inFolder p) rest := by
  induction ss generalizing p place with
  | nil => exact Iff.rfl
  | cons n ss ih =>
    obtain ⟨hn, hss⟩ := List.forall_mem_cons.1 hss
    obtain ⟨es', hhere⟩ := folder_of_follow hfollow hfolder
    obtain ⟨mid, hmid, hfollow⟩ := exists_of_follow_append (a := [n]) hfollow
    obtain ⟨es'', hmidFolder⟩ := folder_of_follow hfollow hfolder
    have hne := hkeeps.ne_nil
    have hbegins (haway : (Search.inFolder p n).Away) :
        (Search.inFolder p n).text <+: q.text := by
      obtain ⟨hlast, hfoldl⟩ := prefix_foldl haway ss
      exact hfoldl.trans (hq hlast)
    have hrest := ih (h.inFolder hn hne hmid) hss (h.keeps hkeeps) hfollow hq
    exact (h.mem_find hd hhere hn hne hmid (by rw [hmidFolder]; rfl) hbegins).trans hrest

theorem notMem_of_mem_segments (text : List Char) : ∀ s ∈ segments text, '/' ∉ s := by
  induction text with
  | nil => simp [segments]
  | cons c cs ih =>
    by_cases hc : c = '/'
    · subst hc
      exact List.forall_mem_cons.2 ⟨List.not_mem_nil, ih⟩
    · obtain ⟨s, ss, hss, hcons⟩ := segments_cons hc cs
      rw [hss, List.forall_mem_cons] at ih
      rw [hcons, List.forall_mem_cons, List.mem_cons, not_or]
      exact ⟨⟨Ne.symm hc, ih.1⟩, ih.2⟩

/-- The path that a search in a folder finds what is at a place below it by. -/
def within (folder : Path) (rel : Place) : Path :=
  (wayOf folder ++ rel).foldl inFolder (startOf folder)

section Folder

variable {folder : Path} {rel : Place}

theorem within_nil (folder : Path) :
    within folder [] = (wayOf folder).foldl inFolder (startOf folder) := by
  rw [within, List.append_nil]

theorem within_eq (folder : Path) (rel : Place) :
    within folder rel = rel.foldl inFolder (within folder []) := by
  rw [within_nil, within, List.foldl_append]

theorem keeps_wayOf (hlost : isLost folder = false) : Keeps (startOf folder) (wayOf folder) := by
  intro hstart
  have hrelative : folder.isAbsolute = false := by
    refine Bool.eq_false_iff.2 fun habsolute => ?_
    rw [startOf, if_pos habsolute] at hstart
    cases hstart
  rw [isLost, hrelative] at hlost
  rw [wayOf, hrelative, if_neg Bool.false_ne_true]
  exact fun hhead => Bool.eq_false_iff.1 hlost (beq_iff_eq.2 hhead)

theorem follow_wayOf (hlocate : d.locate folder = .ok place) :
    d.follow (d.base folder) (wayOf folder) = .ok place :=
  (locate_eq_follow fun hnil => by simp [locate, hnil] at hlocate).symm.trans hlocate

theorem stands_within_nil (hd : d.Sound) (hlocate : d.locate folder = .ok place)
    (hlost : isLost folder = false) : Stands d (within folder []) place := by
  rw [within_nil]
  exact (stands_start hd folder).foldl (notMem_of_mem_segments _) (keeps_wayOf hlost)
    (follow_wayOf hlocate)

/-- What is at a place below a folder is where its path leads to. -/
theorem stands_within {e : Entry} (hd : d.Sound) (hlocate : d.locate folder = .ok place)
    (hlost : isLost folder = false) (hat : d.top.at? (place ++ (rel ++ [n])) = some e) :
    Stands d (within folder (rel ++ [n])) (place ++ (rel ++ [n])) := by
  have hnames := (List.forall_mem_append.1 (hd.named.at? hat).2).2
  rw [within_eq]
  exact (stands_within_nil hd hlocate hlost).foldl (fun m hm => (hnames m hm).1)
    (keeps_of_isName hnames) (follow_of_at? hd hat)

/-- A search for the path of a folder goes on in the folder, for what is spelled as that is. -/
theorem mem_find_within (hd : d.Sound) (hlocate : d.locate folder = .ok place)
    (hfolder : d.top.at? place = some (.folder es)) (hlost : isLost folder = false) :
    within folder rel ∈ find d (startOf folder) ((wayOf folder).map literally ++ rest) ↔
      within folder rel ∈ find d (within folder []) rest := by
  rw [within_nil]
  refine (stands_start hd folder).mem_find_foldl hd (notMem_of_mem_segments _)
    (keeps_wayOf hlost) (follow_wayOf hlocate) hfolder fun haway => ?_
  rw [within, List.foldl_append]
  exact (prefix_foldl haway rel).2

/-- A search that drops the dots and then looks for an empty path finds nothing. -/
theorem find_of_lost (hlost : isLost folder) :
    find d (startOf folder) ((wayOf folder).map literally ++ rest) = [] := by
  obtain ⟨hrelative, hhead⟩ := Bool.and_eq_true_iff.1 hlost
  rw [Bool.not_eq_true'] at hrelative
  rw [startOf, wayOf, hrelative, if_neg Bool.false_ne_true, if_neg Bool.false_ne_true]
  rw [beq_iff_eq] at hhead
  generalize segments folder.text = ss at hhead
  induction ss with
  | nil => cases hhead
  | cons n ss ih =>
    by_cases hn : n = ['.']
    · subst hn
      have hliteral : (literally ['.']).literal? = some ['.'] := rfl
      have hhead : (ss.dropWhile (· == ['.'])).head? = some [] := hhead
      rw [List.map_cons, List.cons_append, find_of_literal hliteral, if_pos (by decide),
        inFolder_here, ih hhead, ite_self]
    · rw [List.dropWhile_cons_of_neg (by simpa using hn)] at hhead
      obtain rfl : n = [] := Option.some.inj hhead
      have hliteral : (literally []).literal? = some [] := rfl
      rw [List.map_cons, List.cons_append, find_of_literal hliteral, if_neg (by decide),
        inFolder_here_eq]
      rfl

end Folder

/-! ### What is below -/

section Below

variable {e e' : Entry} {rel : Place}

theorem mem_belowAll_of_mem (h : (n, e) ∈ es) :
    (Search.inFolder p n, n, e) ∈ belowAll p es ∧
      ∀ x ∈ below (Search.inFolder p n) e, x ∈ belowAll p es := by
  induction es with
  | nil => exact absurd h List.not_mem_nil
  | cons y ys ih =>
    rw [belowAll]
    rcases List.mem_cons.1 h with rfl | h
    · exact ⟨List.mem_cons_self, fun x hx =>
        List.mem_cons_of_mem _ (List.mem_append_left _ hx)⟩
    · obtain ⟨hself, hbelow⟩ := ih h
      exact ⟨List.mem_cons_of_mem _ (List.mem_append_right _ hself), fun x hx =>
        List.mem_cons_of_mem _ (List.mem_append_right _ (hbelow x hx))⟩

/-- What is at a place below an entry is among all that is below. -/
theorem mem_below_of_at? (h : e.at? (rel ++ [n]) = some e') :
    ((rel ++ [n]).foldl Search.inFolder p, n, e') ∈ below p e := by
  induction rel generalizing p e with
  | nil =>
    cases e with
    | file => cases h
    | folder es =>
      obtain ⟨inner, hinner, h⟩ := Option.bind_eq_some_iff.1 h
      obtain rfl := Option.some.inj h
      exact (mem_belowAll_of_mem (Entry.mem_of_lookup hinner)).1
  | cons m ms ih =>
    cases e with
    | file => cases h
    | folder es =>
      obtain ⟨inner, hinner, h⟩ := Option.bind_eq_some_iff.1 h
      exact (mem_belowAll_of_mem (Entry.mem_of_lookup hinner)).2 _ (ih h)

theorem fileName?_inFolder (hp : p = ⟨['.']⟩ ∨ p.Away) (hn : IsName n) :
    (Search.inFolder p n).fileName? = some n := by
  rcases hp with rfl | hp
  · have hplain : (Path.mk n).Plain := ⟨n, [], segments_of_notMem hn.1, hn.isIdle⟩
    have hsteps : (Path.mk n).steps = [.name n] := by
      rw [hplain.steps_eq, segments_of_notMem hn.1, List.filterMap_cons, hn.2]
      rfl
    rw [inFolder_here_eq, fileName?, hsteps]
    rfl
  · rw [inFolder_of_away hp]
    exact hp.fileName?_child hn

/-- All below is listed with the name that its path ends in. -/
theorem fileName?_of_mem_below (he : e.Named) (hp : p = ⟨['.']⟩ ∨ p.Away) :
    ∀ x ∈ below p e, x.1.fileName? = some x.2.1 := by
  refine below.induct
    (fun p e => e.Named → p = ⟨['.']⟩ ∨ p.Away → ∀ x ∈ below p e, x.1.fileName? = some x.2.1)
    (fun p es => (∀ x ∈ es, IsName x.1) → (∀ x ∈ es, Entry.Named x.2) →
      p = ⟨['.']⟩ ∨ p.Away → ∀ x ∈ belowAll p es, x.1.fileName? = some x.2.1)
    ?file ?folder ?nil ?cons p e he hp
  case file => exact fun p bytes _ _ x hx => absurd hx List.not_mem_nil
  case folder =>
    intro p es ih he hp
    cases he with
    | folder names below => exact ih names below hp
  case nil => exact fun p _ _ _ x hx => absurd hx List.not_mem_nil
  case cons =>
    intro p n e es ihe ihes hnames hbelow hp
    obtain ⟨hn, hnames⟩ := List.forall_mem_cons.1 hnames
    obtain ⟨he, hbelow⟩ := List.forall_mem_cons.1 hbelow
    have haway := away_of_isName hp hn
    rw [belowAll, List.forall_mem_cons, List.forall_mem_append]
    exact ⟨fileName?_inFolder hp hn, ihe he (.inr haway), ihes hnames hbelow hp⟩

theorem mem_below_within (folder : Path) (hfolder : d.top.at? place = some (.folder es))
    (hat : d.top.at? (place ++ (rel ++ [n])) = some e) :
    (within folder (rel ++ [n]), n, e) ∈ below (within folder []) (.folder es) := by
  rw [within_eq folder (rel ++ [n])]
  refine mem_below_of_at? ?_
  rw [Entry.at?_append, hfolder] at hat
  exact hat

end Below

end Search

end MplWorkbench
