import MplWorkbench.Proofs.Files.Path

/-! Ways on a disk.

On a disk where each name is one (`Entry.Named`), the names on the way to a folder
are followed one by one. So a path below the current folder leads to the same if
it is spelled from the top (`Disk.Sound.locate_fromTop`).

`Disk.locate_eq_reach`: where a path leads to is told by its steps. -/
namespace MplWorkbench

namespace Entry

variable {e : Entry} {place : Place} {es : List (List Char × Entry)}

/-- Each name below the entry is one. -/
inductive Named : Entry → Prop
  | file (bytes : ByteArray) : Named (.file bytes)
  | folder {es : List (List Char × Entry)} (names : ∀ x ∈ es, Path.IsName x.1)
      (below : ∀ x ∈ es, Named x.2) : Named (.folder es)

theorem at?_append (e : Entry) (a b : Place) : e.at? (a ++ b) = (e.at? a).bind (·.at? b) := by
  induction a generalizing e with
  | nil => rfl
  | cons n ns ih =>
    rw [List.cons_append, at?, at?, Option.bind_assoc]
    exact congrArg _ (funext fun e => ih e)

theorem isSome_lookup_of_at? {n : List Char} {ns : Place} {e' : Entry}
    (h : (folder es).at? (n :: ns) = some e') : (es.lookup n).isSome := by
  obtain ⟨inner, hinner, -⟩ := Option.bind_eq_some_iff.1 h
  exact Option.isSome_of_eq_some hinner

/-- What is on the way to a folder is one. -/
theorem exists_folder_of_append {a b : Place} (h : e.at? (a ++ b) = some (.folder es)) :
    ∃ es', e.at? a = some (.folder es') ∧ (folder es').at? b = some (.folder es) := by
  rw [at?_append] at h
  obtain ⟨inner, hinner, hbelow⟩ := Option.bind_eq_some_iff.1 h
  cases b with
  | nil =>
    obtain rfl := Option.some.inj hbelow
    exact ⟨es, hinner, rfl⟩
  | cons n ns =>
    cases inner with
    | file => cases hbelow
    | folder es' => exact ⟨es', hinner, hbelow⟩

theorem mem_of_lookup {n : List Char} {e' : Entry} (h : es.lookup n = some e') : (n, e') ∈ es := by
  induction es with
  | nil => cases h
  | cons x xs ih =>
    obtain ⟨m, e⟩ := x
    rw [List.lookup_cons] at h
    split at h
    · next heq =>
      obtain rfl := Option.some.inj h
      exact eq_of_beq heq ▸ List.mem_cons_self
    · exact List.mem_cons_of_mem _ (ih h)

theorem Named.at? {e' : Entry} (h : e.Named) (hplace : e.at? place = some e') :
    e'.Named ∧ ∀ n ∈ place, Path.IsName n := by
  induction place generalizing e with
  | nil => exact ⟨Option.some.inj hplace ▸ h, fun n hn => absurd hn List.not_mem_nil⟩
  | cons n ns ih =>
    cases h with
    | file => cases hplace
    | @folder es hnames hbelow =>
      obtain ⟨inner, hinner, hplace⟩ := Option.bind_eq_some_iff.1 hplace
      have hmem := mem_of_lookup hinner
      obtain ⟨hnamed, hns⟩ := ih (hbelow _ hmem) hplace
      exact ⟨hnamed, List.forall_mem_cons.2 ⟨hnames _ hmem, hns⟩⟩

end Entry

namespace Disk

variable {d : Disk} {p : Path} {a b place place' : Place} {ss : List (List Char)}
  {es : List (List Char × Entry)}

/-- Names on the way to a folder are followed one by one. -/
theorem follow_append (h : d.top.at? (a ++ b) = some (.folder es)) (hb : ∀ n ∈ b, Path.IsName n)
    (ss : List (List Char)) : d.follow a (b ++ ss) = d.follow (a ++ b) ss := by
  induction b generalizing a with
  | nil => rw [List.append_nil, List.nil_append]
  | cons n ns ih =>
    obtain ⟨hn, hns⟩ := List.forall_mem_cons.1 hb
    obtain ⟨es', hfolder, hbelow⟩ := Entry.exists_folder_of_append h
    have hlookup := Entry.isSome_lookup_of_at? hbelow
    rw [List.append_cons] at h ⊢
    rw [← ih h hns, List.cons_append, follow, hfolder]
    simp only [hn.2, hlookup, if_true]

theorem locate_fromTop (d : Disk) (p : Path) :
    d.locate p.fromTop = d.follow [] (Path.segments p.text) := rfl

theorem locate_of_plain (h : p.Plain) : d.locate p = d.follow d.current (Path.segments p.text) := by
  obtain ⟨n, ss, hsegments, hn⟩ := h
  unfold locate
  split
  · next htext =>
    rw [htext] at hsegments
    obtain ⟨rfl, -⟩ := List.cons.inj hsegments
    cases hn
  · next htext =>
    rw [htext] at hsegments
    obtain ⟨rfl, -⟩ := List.cons.inj hsegments
    cases hn
  · rfl

/-- Each name on the disk is one, and the current folder is there. -/
structure Sound (d : Disk) : Prop where
  named : d.top.Named
  current : ∃ es, d.top.at? d.current = some (.folder es)

theorem Sound.names (hd : d.Sound) : ∀ n ∈ d.current, Path.IsName n :=
  hd.current.elim fun _ h => (hd.named.at? h).2

/-- A path below the current folder, as it is spelled from the top. -/
def fromTop (d : Disk) (p : Path) : Path := (p.beneath d.current).fromTop

/-- Both spellings of a path lead to the same. -/
theorem Sound.locate_fromTop (hd : d.Sound) (hp : p.Plain) :
    d.locate (d.fromTop p) = d.locate p := by
  obtain ⟨es, hcurrent⟩ := hd.current
  rw [fromTop, Disk.locate_fromTop, locate_of_plain hp,
    Path.segments_beneath fun n hn => (hd.names n hn).1]
  exact follow_append (a := []) hcurrent hd.names _

theorem follow_intercalate (h : d.top.at? (a ++ b) = some (.folder es))
    (hb : ∀ n ∈ b, Path.IsName n) :
    d.follow a (Path.segments (['/'].intercalate b)) = .ok (a ++ b) := by
  by_cases hne : b = []
  · subst hne
    rw [List.append_nil] at h ⊢
    show d.follow a [[]] = _
    rw [follow, h]
    rfl
  · rw [Path.segments_intercalate (fun n hn => (hb n hn).1) hne, ← List.append_nil b,
      follow_append h hb, List.append_nil]
    rfl

theorem locate_pathOf (h : d.top.at? place = some (.folder es))
    (hplace : ∀ n ∈ place, Path.IsName n) : d.locate (pathOf place) = .ok place :=
  follow_intercalate (a := []) h hplace

theorem entry_eq_ok_iff {e : Entry} :
    d.entry p = .ok e ↔ ∃ place, d.locate p = .ok place ∧ d.top.at? place = some e := by
  unfold entry
  cases d.locate p with
  | error => exact ⟨(nomatch ·), fun ⟨_, h, _⟩ => nomatch h⟩
  | ok place =>
    cases hat : d.top.at? place <;> simp [hat, bind, Except.bind, pure, Except.pure]

theorem has_iff {kind : Entry → Bool} : d.has p kind ↔ ∃ e, d.entry p = .ok e ∧ kind e := by
  unfold has
  cases d.entry p with
  | error => exact ⟨(nomatch ·), fun ⟨_, h, _⟩ => nomatch h⟩
  | ok e => exact ⟨fun h => ⟨e, rfl, h⟩, fun ⟨_, h, hkind⟩ => Except.ok.inj h ▸ hkind⟩

/-! ### Where steps lead to -/

/-- Where a step leads to from a place. -/
def step (place : Place) : Step → Place
  | .top => []
  | .here => place
  | .up => place.dropLast
  | .name n => place ++ [n]

/-- Where steps lead to from the current folder. -/
def reach (d : Disk) (steps : List Step) : Place := steps.foldl step d.current

/-- One segment is followed in a folder, and then the others. -/
theorem exists_of_follow_cons {s : List Char} (h : d.follow place (s :: ss) = .ok place') :
    (∃ es, d.top.at? place = some (.folder es)) ∧
      ∃ steps : Option Step, Step.ofSegment? s = steps ∧
        d.follow (steps.elim place (step place)) ss = .ok place' := by
  rw [follow] at h
  cases hat : d.top.at? place with
  | none =>
    rw [hat] at h
    cases h
  | some e =>
    cases e with
    | file =>
      rw [hat] at h
      cases h
    | folder es =>
      refine ⟨⟨es, rfl⟩, _, rfl, ?_⟩
      simp only [hat] at h
      rcases Step.ofSegment?_cases s with hs | hs | hs <;> rw [hs] at h ⊢
      · exact h
      · exact h
      · change (if (es.lookup s).isSome then _ else _) = _ at h
        split at h
        · exact h
        · cases h

theorem follow_eq (h : d.follow place ss = .ok place') :
    place' = (ss.filterMap Step.ofSegment?).foldl step place := by
  induction ss generalizing place with
  | nil => exact (Except.ok.inj h).symm
  | cons s ss ih =>
    obtain ⟨-, taken, hs, h⟩ := exists_of_follow_cons h
    rw [ih h, List.filterMap_cons, hs]
    cases taken <;> rfl

theorem locate_eq_reach (h : d.locate p = .ok place) : place = d.reach p.steps := by
  unfold locate at h
  split at h
  · cases h
  · next rest htext =>
    obtain rfl : p = Path.fromTop ⟨rest⟩ := by rw [Path.fromTop, ← htext]
    rw [follow_eq h, Path.steps_fromTop]
    rfl
  · next hne hslash =>
    rw [follow_eq h, reach]
    rcases Path.plain_or hne hslash with hp | ⟨ss, hss⟩
    · rw [hp.steps_eq]
    · rw [Path.steps, Path.parts, hss]
      rfl

/-- Where a segment takes no step, there is a folder. -/
theorem at?_of_follow_idle {s : List Char} (hs : Path.isIdle s)
    (h : d.follow place (ss ++ [s]) = .ok place') : ∃ es, d.top.at? place' = some (.folder es) := by
  induction ss generalizing place with
  | nil =>
    obtain ⟨hfolder, taken, hstep, h⟩ := exists_of_follow_cons h
    rw [Option.isNone_iff_eq_none.1 hs] at hstep
    subst hstep
    exact Except.ok.inj h ▸ hfolder
  | cons s' ss ih =>
    obtain ⟨-, taken, -, h⟩ := exists_of_follow_cons h
    exact ih h

theorem ends_of_isFile (hp : p.Plain) (h : d.isFile p) : p.Ends := by
  obtain ⟨ss, s, hsegments⟩ :=
    (List.eq_nil_or_concat' (Path.segments p.text)).resolve_left (Path.segments_ne_nil _)
  refine ⟨ss, s, hsegments, Bool.eq_false_iff.2 fun hs => ?_⟩
  obtain ⟨e, hentry, hfile⟩ := has_iff.1 h
  obtain ⟨place, hplace, hat⟩ := entry_eq_ok_iff.1 hentry
  rw [locate_of_plain hp, hsegments] at hplace
  obtain ⟨es, hfolder⟩ := at?_of_follow_idle hs hplace
  obtain rfl := Option.some.inj (hat.symm.trans hfolder)
  cases hfile

end Disk

end MplWorkbench
