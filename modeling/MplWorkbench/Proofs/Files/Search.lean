import MplWorkbench.Files.Search
import MplWorkbench.Proofs.Files.Disk
import MplWorkbench.Proofs.Files.Escape

/-! Searching a folder in two spellings.

The names on the way to a folder are looked for one by one; one with a special
character is looked for without regard to case, so the search comes to the folder
alone only if nothing else is taken for one of them (`Disk.Unmistakable`).

`Search.find_fromTop`: from a path spelled from the top, a search finds the same,
spelled from the top. -/
namespace MplWorkbench

open MplWorkbench.Path

/-! ### Folders and their spellings -/

namespace Disk

/-- The path of a place below the current folder, as it is spelled from there. -/
def pathBelow : Place → Path
  | [] => ⟨['.']⟩
  | place => ⟨['/'].intercalate place⟩

/-- No name on the way has a special character and another spelling beside it that differs in case
at most. -/
def Unmistakable (d : Disk) (place : Place) : Prop :=
  ∀ front n back es, place = front ++ n :: back → (∃ c ∈ n, c ∈ Pattern.specials) →
    d.top.at? front = some (.folder es) →
    ∀ x ∈ es, x.1.map Char.toLower = n.map Char.toLower → x.1 = n

/-- A manner of spelling the folders below a place. -/
structure Spells (d : Disk) (base : Place) (spell : Place → Path) : Prop where
  locate_eq : ∀ place es, d.top.at? (base ++ place) = some (.folder es) →
    (∀ n ∈ place, IsName n) → d.locate (spell place) = .ok (base ++ place)
  inFolder_eq : ∀ place n, (∀ m ∈ place, IsName m) → IsName n →
    Search.inFolder (spell place) n = spell (place ++ [n])

variable {d : Disk} {p : Path} {n : List Char} {place : Place} {es : List (List Char × Entry)}

theorem pathOf_child (hplace : ∀ m ∈ place, IsName m) (n : List Char) :
    (pathOf place).child n = pathOf (place ++ [n]) := by
  by_cases hne : place = []
  · subst hne
    exact congrArg (fun text => Path.mk ('/' :: text)) (intercalate_singleton n).symm
  · exact child_intercalate (p := pathOf place) (t := ['/']) hplace hne rfl n

theorem pathBelow_eq (hne : place ≠ []) : pathBelow place = ⟨['/'].intercalate place⟩ := by
  obtain ⟨m, ns, rfl⟩ := List.exists_cons_of_ne_nil hne
  rfl

theorem plain_pathBelow (hplace : ∀ m ∈ place, IsName m) (hne : place ≠ []) :
    (pathBelow place).Plain := by
  rw [pathBelow_eq hne]
  obtain ⟨m, ns, rfl⟩ := List.exists_cons_of_ne_nil hne
  exact ⟨m, ns, segments_intercalate (fun n hn => (hplace n hn).1) hne,
    (hplace m List.mem_cons_self).isIdle⟩

theorem spells_pathOf (d : Disk) : d.Spells [] pathOf where
  locate_eq _ _ h hplace := locate_pathOf h hplace
  inFolder_eq place n hplace _ := by
    have hhere : (pathOf place).isHere = false := isHere_fromTop ⟨['/'].intercalate place⟩
    rw [Search.inFolder, hhere, if_neg Bool.false_ne_true, pathOf_child hplace]

theorem spells_pathBelow (d : Disk) : d.Spells d.current pathBelow where
  locate_eq place es h hplace := by
    by_cases hne : place = []
    · subst hne
      rw [List.append_nil] at h ⊢
      show d.follow d.current [['.']] = _
      rw [follow, h]
      rfl
    · have hlocate := locate_of_plain (d := d) (plain_pathBelow hplace hne)
      rw [hlocate, pathBelow_eq hne]
      exact follow_intercalate h hplace
  inFolder_eq place n hplace hn := by
    by_cases hne : place = []
    · subst hne
      exact congrArg Path.mk (intercalate_singleton n).symm
    · rw [Search.inFolder, (plain_pathBelow hplace hne).isHere_eq, if_neg Bool.false_ne_true,
        pathBelow_eq hne, pathBelow_eq (List.append_ne_nil_of_left_ne_nil hne _)]
      exact child_intercalate (t := []) hplace hne rfl n

end Disk

namespace Search

open Disk Pattern

variable {d : Disk} {p q : Path} {n : List Char} {place base : Place} {piece : Pattern}
  {rest : List Pattern} {es : List (List Char × Entry)} {spell : Place → Path}

/-! ### The way to a folder -/

theorem find_of_literal (h : piece.literal? = some n) : find d p (piece :: rest) =
    if n ∈ [['.'], ['.', '.']] then if d.isFolder p then find d (inFolder p n) rest else []
    else if (d.entry (inFolder p n)).isOk then find d (inFolder p n) rest else [] := by
  simp only [find, h]

theorem find_of_error {error : FileError} (hliteral : piece.literal? = none)
    (h : d.entry p = .error error) : find d p (piece :: rest) = [] := by
  simp only [find, hliteral, h]

theorem find_of_folders_nil {e : Entry} (hliteral : piece.literal? = none) (h : d.entry p = .ok e)
    (hspans : piece.spansFolders) : find d p [piece] =
      (below p e).filterMap fun x => if x.2.2.isFolder then some x.1 else none := by
  simp only [find, hliteral, h, if_pos hspans]

theorem find_of_folders_cons {e : Entry} {next : Pattern} (hliteral : piece.literal? = none)
    (h : d.entry p = .ok e) (hspans : piece.spansFolders) : find d p (piece :: next :: rest) =
      (below p e).flatMap fun x => if next.describesFolded x.2.1 then find d x.1 rest else [] := by
  simp only [find, hliteral, h, if_pos hspans]

theorem find_of_names {e : Entry} (hliteral : piece.literal? = none) (h : d.entry p = .ok e)
    (hspans : ¬ piece.spansFolders) : find d p (piece :: rest) =
      (if piece.tokens.head? == some (.char '.') && e.isFolder then
        [['.', '.'], ['.']].filter piece.describesFolded else []).flatMap
          (fun n => find d (p.child n) rest) ++
        e.entries.flatMap fun x =>
          if piece.describesFolded x.1 then find d (inFolder p x.1) rest else [] := by
  simp only [find, hliteral, h, if_neg hspans]

/-- A name with a special character is not taken for the folder itself or the one around it. -/
theorem describesFolded_dots (hspecial : ∃ c ∈ n, c ∈ specials) :
    ∀ dots ∈ [['.', '.'], ['.']], (literally n).describesFolded dots = false := by
  obtain ⟨c, hc, hc'⟩ := hspecial
  have hnot : ∀ c ∈ specials, c ≠ '.' := forall_mem_specials.2 (by decide)
  refine fun dots hdots => Bool.eq_false_iff.2 fun h => hnot c hc' ?_
  have hlower : c.toLower ∈ dots.map Char.toLower :=
    (describesFolded_literally n dots).1 h ▸ List.mem_map_of_mem hc
  rw [(isSpecial_toLower c hc').1] at hlower
  rcases List.mem_cons.1 hdots with rfl | hdots
  · exact (List.mem_cons.1 hlower).elim id List.mem_singleton.1
  · obtain rfl := List.mem_singleton.1 hdots
    exact List.mem_singleton.1 hlower

/-- A name is looked for without regard to case only if it has a special character, and then finds
itself at least. What is found by no other name is found in the folder of that name. -/
theorem mem_find_literally (hn : IsName n) (hp : d.entry p = .ok (.folder es))
    (hchild : (d.entry (inFolder p n)).isOk) (hmem : ∃ e, (n, e) ∈ es)
    (hlone : (∃ c ∈ n, c ∈ specials) → ∀ x ∈ es, x.1.map Char.toLower = n.map Char.toLower →
      q ∈ find d (inFolder p x.1) rest → x.1 = n) :
    q ∈ find d p (literally n :: rest) ↔ q ∈ find d (inFolder p n) rest := by
  by_cases hspecial : ∃ c ∈ n, c ∈ specials
  · have hliteral := literal?_of_special hspecial
    have hdots : [['.', '.'], ['.']].filter (literally n).describesFolded = [] :=
      List.filter_eq_nil_iff.2 fun dots hdots =>
        Bool.eq_false_iff.1 (describesFolded_dots hspecial dots hdots)
    rw [find_of_names hliteral hp (Bool.eq_false_iff.1 (spansFolders_literally n)), hdots, ite_self,
      List.flatMap_nil, List.nil_append, List.mem_flatMap]
    constructor
    · rintro ⟨⟨m, e⟩, hm, hq⟩
      split at hq
      · next hdescribes =>
        have hfold := (describesFolded_literally n m).1 hdescribes
        obtain rfl : m = n := hlone hspecial _ hm hfold hq
        exact hq
      · exact absurd hq List.not_mem_nil
    · obtain ⟨e, hmem⟩ := hmem
      intro hq
      refine ⟨(n, e), hmem, ?_⟩
      rw [if_pos ((describesFolded_literally n n).2 rfl)]
      exact hq
  · have hliteral := literal?_of_plain fun c hc hc' => hspecial ⟨c, hc, hc'⟩
    rw [find_of_literal hliteral, if_neg hn.notMem, if_pos hchild]

/-- A search for the names on the way comes to the folder, and goes on from there. -/
theorem mem_find_way (hspell : d.Spells base spell) {front : Place}
    (hfolder : d.top.at? (base ++ front ++ place) = some (.folder es)) (hd : d.top.Named)
    (hlone : d.Unmistakable (base ++ front ++ place)) :
    q ∈ find d (spell front) (place.map literally ++ rest) ↔
      q ∈ find d (spell (front ++ place)) rest := by
  induction place generalizing front with
  | nil => rw [List.append_nil, List.map_nil, List.nil_append]
  | cons n ns ih =>
    have hnames := (hd.at? hfolder).2
    have hfront : ∀ m ∈ front, IsName m := fun m hm =>
      hnames m (List.mem_append_left _ (List.mem_append_right _ hm))
    have hn : IsName n := hnames n (List.mem_append_right _ List.mem_cons_self)
    have hsplit : base ++ front ++ n :: ns = base ++ (front ++ [n]) ++ ns := by simp
    obtain ⟨es', hat, hbelow⟩ := Entry.exists_folder_of_append hfolder
    obtain ⟨inner, hinner, -⟩ := Entry.exists_folder_of_append (hsplit ▸ hfolder)
    obtain ⟨e, hlookup⟩ := Option.isSome_iff_exists.1 (Entry.isSome_lookup_of_at? hbelow)
    have hp : d.entry (spell front) = .ok (.folder es') :=
      entry_eq_ok_iff.2 ⟨_, hspell.locate_eq front es' hat hfront, hat⟩
    have hnext : ∀ m ∈ front ++ [n], IsName m := by
      rw [List.forall_mem_append]
      exact ⟨hfront, List.forall_mem_singleton.2 hn⟩
    have hchild : d.entry (spell (front ++ [n])) = .ok (.folder inner) :=
      entry_eq_ok_iff.2 ⟨_, hspell.locate_eq _ inner hinner hnext, hinner⟩
    have hstep := hspell.inFolder_eq front n hfront hn
    have hfind : q ∈ find d (spell front) (literally n :: (ns.map literally ++ rest)) ↔
        q ∈ find d (spell (front ++ [n])) (ns.map literally ++ rest) := by
      rw [← hstep]
      refine mem_find_literally hn hp ?_ ⟨e, Entry.mem_of_lookup hlookup⟩
        fun hspecial x hx hfold _ => hlone _ n ns es' rfl hspecial hat x hx hfold
      rw [hstep, hchild]
      rfl
    rw [List.map_cons, List.cons_append, hfind, ih (hsplit ▸ hfolder) (hsplit ▸ hlone),
      List.append_assoc]
    rfl

/-! ### What is found in a folder -/

/-- Two paths of one folder, the second from the top. What is in the folder is spelled from the top
as the folder is. -/
structure Respells (d : Disk) (p p' : Path) : Prop where
  entry_eq : d.entry p' = d.entry p
  inFolder_eq : ∀ n, IsName n → inFolder p' n = d.fromTop (inFolder p n)
  plain : ∀ n, IsName n → (inFolder p n).Plain

theorem inFolder_of_plain (hp : p.Plain) (n : List Char) : inFolder p n = p.child n := by
  rw [inFolder, hp.isHere_eq, if_neg Bool.false_ne_true]

theorem plain_inFolder (hp : p.Plain) (n : List Char) : (inFolder p n).Plain :=
  inFolder_of_plain hp n ▸ hp.child n

theorem child_fromTop (hp : p.Plain) (n : List Char) :
    (d.fromTop p).child n = d.fromTop (p.child n) := fromTop_child hp.text_ne d.current n

theorem inFolder_fromTop (hp : p.Plain) (n : List Char) :
    inFolder (d.fromTop p) n = d.fromTop (inFolder p n) := by
  rw [inFolder_of_plain hp, inFolder, Disk.fromTop, isHere_fromTop, if_neg Bool.false_ne_true]
  exact child_fromTop hp n

/-- The paths of a list are spelled from the current folder, and those of the other, from the
top. -/
def FromTop (d : Disk) (found found' : List Path) : Prop :=
  (∀ q ∈ found, q.Plain) ∧ found' = found.map d.fromTop

theorem FromTop.nil : FromTop d [] [] := ⟨fun _ hq => absurd hq List.not_mem_nil, rfl⟩

theorem FromTop.append {a a' b b' : List Path} (ha : FromTop d a a') (hb : FromTop d b b') :
    FromTop d (a ++ b) (a' ++ b') :=
  ⟨List.forall_mem_append.2 ⟨ha.1, hb.1⟩, by rw [ha.2, hb.2, List.map_append]⟩

theorem FromTop.flatMap {α : Type} {xs : List α} {f f' : α → List Path}
    (h : ∀ x ∈ xs, FromTop d (f x) (f' x)) : FromTop d (xs.flatMap f) (xs.flatMap f') := by
  induction xs with
  | nil => exact .nil
  | cons x xs ih =>
    obtain ⟨hx, hxs⟩ := List.forall_mem_cons.1 h
    exact hx.append (ih hxs)

theorem FromTop.ite {a a' : List Path} {c : Prop} [Decidable c] (h : FromTop d a a') :
    FromTop d (if c then a else []) (if c then a' else []) := by
  split
  · exact h
  · exact .nil

section Sound

variable (hd : d.Sound)
include hd

theorem entry_fromTop (hp : p.Plain) : d.entry (d.fromTop p) = d.entry p := by
  rw [entry, hd.locate_fromTop hp, entry]

theorem has_fromTop (hp : p.Plain) (kind : Entry → Bool) :
    d.has (d.fromTop p) kind = d.has p kind := by
  rw [has, entry_fromTop hd hp, has]

theorem respells_of_plain (hp : p.Plain) : Respells d p (d.fromTop p) where
  entry_eq := entry_fromTop hd hp
  inFolder_eq n _ := inFolder_fromTop hp n
  plain n _ := plain_inFolder hp n

/-- The current folder and its path from the top. -/
theorem respells_current : Respells d (pathBelow []) (pathOf d.current) where
  entry_eq := by
    obtain ⟨es, hcurrent⟩ := hd.current
    have hplace := (List.append_nil d.current).symm
    have hbelow := (spells_pathBelow d).locate_eq [] es (hplace ▸ hcurrent) (by simp)
    rw [entry, entry, locate_pathOf hcurrent hd.names, hbelow, List.append_nil]
  inFolder_eq n hn := by
    rw [(spells_pathOf d).inFolder_eq d.current n hd.names hn, pathOf,
      intercalate_append d.current (List.cons_ne_nil n []), intercalate_singleton]
    rfl
  plain n hn := ⟨n, [], segments_of_notMem hn.1, hn.isIdle⟩

/-- What is below a folder, in both spellings. -/
theorem below_respelled {p' : Path} (e : Entry) (he : e.Named) (h : Respells d p p') :
    below p' e = (below p e).map (fun x => (d.fromTop x.1, x.2)) ∧ ∀ x ∈ below p e, x.1.Plain := by
  refine below.induct
    (fun p e => e.Named → ∀ p', Respells d p p' →
      below p' e = (below p e).map (fun x => (d.fromTop x.1, x.2)) ∧ ∀ x ∈ below p e, x.1.Plain)
    (fun p es => (∀ x ∈ es, IsName x.1) → (∀ x ∈ es, Entry.Named x.2) → ∀ p', Respells d p p' →
      belowAll p' es = (belowAll p es).map (fun x => (d.fromTop x.1, x.2)) ∧
        ∀ x ∈ belowAll p es, x.1.Plain)
    ?file ?folder ?nil ?cons p e he p' h
  case file => exact fun p bytes _ p' _ => ⟨rfl, fun x hx => absurd hx List.not_mem_nil⟩
  case folder =>
    intro p es ih he p' h
    cases he with
    | folder names below => exact ih names below p' h
  case nil => exact fun p _ _ p' _ => ⟨rfl, fun x hx => absurd hx List.not_mem_nil⟩
  case cons =>
    intro p n e es ihe ihes hnames hbelow p' h
    obtain ⟨hn, hnames⟩ := List.forall_mem_cons.1 hnames
    obtain ⟨he, hbelow⟩ := List.forall_mem_cons.1 hbelow
    obtain ⟨heq, hplain⟩ := ihe he _ (respells_of_plain hd (h.plain n hn))
    obtain ⟨heqs, hplains⟩ := ihes hnames hbelow p' h
    refine ⟨?_, ?_⟩
    · rw [belowAll, belowAll, h.inFolder_eq n hn, heq, heqs, List.map_cons, List.map_append]
    · rw [belowAll, List.forall_mem_cons, List.forall_mem_append]
      exact ⟨h.plain n hn, hplain, hplains⟩

/-- All folders below are gone through alike in both spellings. -/
theorem find_respelled {p' : Path} (h : Respells d p p') (hspans : piece.spansFolders)
    (hliteral : piece.literal? = none)
    (hrest : ∀ next rest', rest = next :: rest' →
      ∀ q, q.Plain → FromTop d (find d q rest') (find d (d.fromTop q) rest')) :
    FromTop d (find d p (piece :: rest)) (find d p' (piece :: rest)) := by
  cases hentry : d.entry p with
  | error =>
    rw [find_of_error hliteral hentry, find_of_error hliteral (h.entry_eq.trans hentry)]
    exact .nil
  | ok e =>
    have hentry' := h.entry_eq.trans hentry
    obtain ⟨place, -, hat⟩ := entry_eq_ok_iff.1 hentry
    obtain ⟨hbelow, hplain⟩ := below_respelled hd e (hd.named.at? hat).1 h
    cases rest with
    | nil =>
      rw [find_of_folders_nil hliteral hentry hspans, find_of_folders_nil hliteral hentry' hspans,
        hbelow]
      refine ⟨fun q hq => ?_, ?_⟩
      · obtain ⟨x, hx, hq⟩ := List.mem_filterMap.1 hq
        obtain ⟨-, hq⟩ := Option.ite_none_right_eq_some.1 hq
        exact Option.some.inj hq ▸ hplain x hx
      · rw [List.filterMap_map, List.map_filterMap]
        refine List.filterMap_congr fun x _ => ?_
        show (if x.2.2.isFolder then _ else _) = _
        split <;> rfl
    | cons next rest' =>
      rw [find_of_folders_cons hliteral hentry hspans, find_of_folders_cons hliteral hentry' hspans,
        hbelow, List.flatMap_map]
      exact .flatMap fun x hx => (hrest next rest' rfl x.1 (hplain x hx)).ite

/-- A search that goes on from a path finds the same from the path spelled from the top. -/
theorem find_fromTop (ps : List Pattern) {p : Path} (hp : p.Plain) :
    FromTop d (find d p ps) (find d (d.fromTop p) ps) := by
  induction hlength : ps.length using Nat.strongRecOn generalizing p ps with
  | ind k ih =>
    cases ps with
    | nil => exact ⟨List.forall_mem_singleton.2 hp, rfl⟩
    | cons piece rest =>
      have hrest {q : Path} (hq : q.Plain) :
          FromTop d (find d q rest) (find d (d.fromTop q) rest) :=
        ih rest.length (hlength ▸ Nat.lt_succ_self _) rest hq rfl
      cases hliteral : piece.literal? with
      | some n =>
        have hq := plain_inFolder hp n
        have hfolder : d.isFolder (d.fromTop p) = d.isFolder p := has_fromTop hd hp _
        rw [find_of_literal hliteral, find_of_literal hliteral, inFolder_fromTop hp,
          entry_fromTop hd hq, hfolder]
        split
        · exact (hrest hq).ite
        · exact (hrest hq).ite
      | none =>
        by_cases hspans : piece.spansFolders
        · refine find_respelled hd (respells_of_plain hd hp) hspans hliteral
            fun next rest' heq q hq => ?_
          have hlt : rest'.length < k := by
            rw [← hlength, heq]
            simp only [List.length_cons]
            omega
          exact ih rest'.length hlt rest' hq rfl
        cases hentry : d.entry p with
        | error =>
          have hentry' := (entry_fromTop hd hp).trans hentry
          rw [find_of_error hliteral hentry, find_of_error hliteral hentry']
          exact .nil
        | ok e =>
          have hentry' := (entry_fromTop hd hp).trans hentry
          rw [find_of_names hliteral hentry hspans, find_of_names hliteral hentry' hspans]
          refine .append (.flatMap fun n _ => ?_) (.flatMap fun x _ => ?_)
          · rw [child_fromTop hp]
            exact hrest (hp.child n)
          · rw [inFolder_fromTop hp]
            exact (hrest (plain_inFolder hp x.1)).ite

end Sound

end Search

end MplWorkbench
