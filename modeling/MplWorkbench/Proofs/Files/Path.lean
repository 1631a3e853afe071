import Mathlib.Data.List.Basic
import MplWorkbench.Files.Disk

/-! Two spellings of one way.

A file below the current folder can be told by the names from there on, or by all
names from the top. The second spelling has the first at its end, behind the names
of the current folder (`Path.beneath`).

`Path.relativeTo?_fromTop`: seen from a folder around the current one, what is left
of the second is spelled from that folder. -/
namespace MplWorkbench

theorem Step.ofSegment?_cases (s : List Char) :
    ofSegment? s = none ∨ ofSegment? s = some .up ∨ ofSegment? s = some (.name s) := by
  unfold ofSegment?
  split <;> simp

instance : Std.LawfulEqOrd Step where
  compare_self {a} := by
    cases a with
    | name n => exact Ordering.then_eq_eq.2 ⟨Std.ReflOrd.compare_self, rfl⟩
    | _ => rfl
  eq_of_compare {a b} h := by
    cases a <;> cases b <;> first | rfl | contradiction | skip
    case name.name =>
      exact congrArg Step.name (Std.LawfulEqOrd.eq_of_compare (Ordering.then_eq_eq.1 h).1)

namespace Path

variable {s n : List Char} {ss : List (List Char)} {p q : Path} {place : List (List Char)}

/-! ### Segments -/

theorem segments_ne_nil (text : List Char) : segments text ≠ [] := by
  fun_cases segments text <;> simp_all

theorem segments_cons {c : Char} (hc : c ≠ '/') (cs : List Char) : ∃ s ss,
    segments cs = s :: ss ∧ segments (c :: cs) = (c :: s) :: ss := by
  obtain ⟨s, ss, hss⟩ := List.exists_cons_of_ne_nil (segments_ne_nil cs)
  refine ⟨s, ss, hss, ?_⟩
  rw [segments, beq_false_of_ne hc, if_neg Bool.false_ne_true, hss]

theorem segments_append_slash (a b : List Char) :
    segments (a ++ '/' :: b) = segments a ++ segments b := by
  induction a with
  | nil => rfl
  | cons c cs ih =>
    by_cases hc : c = '/'
    · subst hc
      exact congrArg ([] :: ·) ih
    · obtain ⟨s, ss, hss, hcons⟩ := segments_cons hc cs
      obtain ⟨s', ss', hss', hcons'⟩ := segments_cons hc (cs ++ '/' :: b)
      rw [hss, hss'] at ih
      obtain ⟨rfl, rfl⟩ := List.cons.inj ih
      rw [hcons]
      exact hcons'

theorem segments_of_notMem (h : '/' ∉ n) : segments n = [n] := by
  induction n with
  | nil => rfl
  | cons c cs ih =>
    obtain ⟨hc, hcs⟩ := not_or.1 (mt List.mem_cons.2 h)
    obtain ⟨s, ss, hss, hcons⟩ := segments_cons (Ne.symm hc) cs
    obtain ⟨rfl, rfl⟩ := List.cons.inj (hss.symm.trans (ih hcs))
    exact hcons

theorem segments_append_of_notMem {a b s : List Char} {ss : List (List Char)} (h : '/' ∉ a)
    (hb : segments b = s :: ss) : segments (a ++ b) = (a ++ s) :: ss := by
  induction a with
  | nil => exact hb
  | cons c cs ih =>
    obtain ⟨hc, hcs⟩ := not_or.1 (mt List.mem_cons.2 h)
    obtain ⟨s', ss', hss', hcons⟩ := segments_cons (Ne.symm hc) (cs ++ b)
    obtain ⟨rfl, rfl⟩ := List.cons.inj (hss'.symm.trans (ih hcs))
    exact hcons

theorem intercalate_cons (h : ss ≠ []) :
    ['/'].intercalate (s :: ss) = s ++ '/' :: ['/'].intercalate ss := by
  obtain ⟨s', ss', rfl⟩ := List.exists_cons_of_ne_nil h
  rfl

theorem intercalate_segments (text : List Char) : ['/'].intercalate (segments text) = text := by
  induction text with
  | nil => rfl
  | cons c cs ih =>
    by_cases hc : c = '/'
    · subst hc
      show ['/'].intercalate ([] :: segments cs) = _
      rw [intercalate_cons (segments_ne_nil cs), ih, List.nil_append]
    · obtain ⟨s, ss, hss, hcons⟩ := segments_cons hc cs
      rw [hcons, ← ih, hss]
      cases ss <;> rfl

/-! ### Names -/

/-- A text that is one segment, and leads to what has this name. -/
def IsName (n : List Char) : Prop := '/' ∉ n ∧ Step.ofSegment? n = some (.name n)

instance (n : List Char) : Decidable (IsName n) := inferInstanceAs (Decidable (_ ∧ _))

theorem IsName.isIdle (h : IsName n) : isIdle n = false := by
  rw [Path.isIdle, h.2]
  rfl

theorem IsName.ne_nil (h : IsName n) : n ≠ [] := by
  rintro rfl
  cases h.2

theorem IsName.notMem (h : IsName n) : n ∉ [['.'], ['.', '.']] := by
  intro hmem
  rcases List.mem_cons.1 hmem with rfl | hmem
  · cases h.2
  · obtain rfl := List.mem_singleton.1 hmem
    cases h.2

/-! ### Spelling from a folder above -/

/-- The path, as it is spelled from a folder that leads through these names to where it is spelled
from. -/
def beneath (p : Path) (place : List (List Char)) : Path :=
  ⟨place.foldr (fun name text => name ++ '/' :: text) p.text⟩

/-- The path, as it is spelled if it begins at the top. -/
def fromTop (p : Path) : Path := ⟨'/' :: p.text⟩

theorem beneath_append (p : Path) (a b : List (List Char)) :
    p.beneath (a ++ b) = (p.beneath b).beneath a := by
  rw [beneath, List.foldr_append]
  rfl

theorem segments_beneath (h : ∀ n ∈ place, '/' ∉ n) :
    segments (p.beneath place).text = place ++ segments p.text := by
  induction place with
  | nil => rfl
  | cons n ns ih =>
    obtain ⟨hn, hns⟩ := List.forall_mem_cons.1 h
    show segments (n ++ '/' :: (p.beneath ns).text) = _
    rw [segments_append_slash, segments_of_notMem hn, ih hns]
    rfl

theorem intercalate_append (a : List (List Char)) {b : List (List Char)} (hb : b ≠ []) :
    ['/'].intercalate (a ++ b) = (beneath ⟨['/'].intercalate b⟩ a).text := by
  induction a with
  | nil => rfl
  | cons n ns ih =>
    rw [List.cons_append, intercalate_cons (List.append_ne_nil_of_right_ne_nil ns hb), ih]
    rfl

theorem intercalate_singleton (n : List Char) : ['/'].intercalate [n] = n := List.append_nil n

theorem intercalate_concat (h : ss ≠ []) (n : List Char) :
    ['/'].intercalate (ss ++ [n]) = ['/'].intercalate ss ++ '/' :: n := by
  induction ss with
  | nil => contradiction
  | cons s ss ih =>
    by_cases hss : ss = []
    · subst hss
      rw [List.singleton_append, intercalate_cons (List.cons_ne_nil n []), intercalate_singleton,
        intercalate_singleton]
    · rw [List.cons_append, intercalate_cons (List.append_ne_nil_of_left_ne_nil hss _), ih hss,
        intercalate_cons hss, List.append_assoc]
      rfl

theorem text_beneath_append (place : List (List Char)) (a b : List Char) :
    (beneath ⟨a ++ b⟩ place).text = (beneath ⟨a⟩ place).text ++ b := by
  induction place with
  | nil => rfl
  | cons n ns ih =>
    show n ++ '/' :: (beneath ⟨a ++ b⟩ ns).text = n ++ '/' :: (beneath ⟨a⟩ ns).text ++ b
    rw [ih, List.append_assoc]
    rfl

theorem child_eq (h : p.text ≠ []) (name : List Char) :
    p.child name = ⟨p.text ++ if p.text.getLast? == some '/' then name else '/' :: name⟩ := by
  rw [child, List.isEmpty_eq_false_iff.2 h, Bool.false_or]
  split <;> rfl

/-- Something in a folder is spelled from above as the folder is. -/
theorem fromTop_child (h : p.text ≠ []) (place : List (List Char)) (name : List Char) :
    (p.beneath place).fromTop.child name = ((p.child name).beneath place).fromTop := by
  have htext : (p.beneath place).fromTop.text = '/' :: (beneath ⟨[]⟩ place).text ++ p.text :=
    congrArg ('/' :: ·) (text_beneath_append place [] p.text)
  have hlast : (p.beneath place).fromTop.text.getLast? = p.text.getLast? := by
    rw [htext, List.getLast?_append_of_ne_nil _ h]
  rw [child_eq (p := (p.beneath place).fromTop) (List.cons_ne_nil _ _), hlast, child_eq h]
  exact congrArg (fun text => Path.mk ('/' :: text)) (text_beneath_append place p.text _).symm

theorem child_of_name {t : List Char} (h : IsName n) (hp : p.text = t ++ n) (name : List Char) :
    p.child name = ⟨p.text ++ '/' :: name⟩ := by
  have hlast : p.text.getLast? ≠ some '/' := by
    rw [hp, List.getLast?_append_of_ne_nil _ h.ne_nil]
    exact fun hlast => h.1 (List.mem_of_getLast? hlast)
  have hne : p.text ≠ [] := hp ▸ List.append_ne_nil_of_right_ne_nil t h.ne_nil
  rw [child_eq hne, beq_false_of_ne hlast, if_neg Bool.false_ne_true]

/-- A path that ends in names goes on behind a slash. -/
theorem child_intercalate {t : List Char} (h : ∀ m ∈ place, IsName m) (hne : place ≠ [])
    (hp : p.text = t ++ ['/'].intercalate place) (name : List Char) :
    p.child name = ⟨t ++ ['/'].intercalate (place ++ [name])⟩ := by
  obtain ⟨ns, m, rfl⟩ := (List.eq_nil_or_concat' place).resolve_left hne
  have hm : IsName m := h m (List.mem_append_right ns (List.mem_singleton_self m))
  have htext : p.text = (t ++ (beneath ⟨[]⟩ ns).text) ++ m := by
    rw [hp, intercalate_append ns (List.cons_ne_nil m []), intercalate_singleton,
      List.append_assoc, ← text_beneath_append ns [] m]
    rfl
  rw [child_of_name hm htext, hp, intercalate_concat hne, List.append_assoc]

/-! ### Paths that begin with a step to a name -/

/-- The path is spelled from the current folder, and leads out of it at once. -/
def Plain (p : Path) : Prop := ∃ n ss, segments p.text = n :: ss ∧ isIdle n = false

/-- What does not begin at the top may also begin with the current folder itself. -/
theorem plain_or (hne : p.text ≠ []) (hslash : ∀ rest, p.text ≠ '/' :: rest) :
    p.Plain ∨ ∃ ss, segments p.text = ['.'] :: ss := by
  obtain ⟨c, cs, htext⟩ := List.exists_cons_of_ne_nil hne
  have hc : c ≠ '/' := fun hc => hslash cs (hc ▸ htext)
  obtain ⟨s, ss, -, hcons⟩ := segments_cons hc cs
  rw [← htext] at hcons
  by_cases hhere : c :: s = ['.']
  · exact .inr ⟨ss, hhere ▸ hcons⟩
  · refine .inl ⟨c :: s, ss, hcons, ?_⟩
    unfold isIdle Step.ofSegment?
    split
    · contradiction
    · exact absurd ‹_› hhere
    · rfl
    · rfl

theorem Plain.text_ne (h : p.Plain) : p.text ≠ [] := by
  obtain ⟨n, ss, hsegments, hn⟩ := h
  intro htext
  rw [htext] at hsegments
  obtain ⟨rfl, -⟩ := List.cons.inj hsegments
  cases hn

theorem Plain.isAbsolute_eq (h : p.Plain) : p.isAbsolute = false := by
  obtain ⟨n, ss, hsegments, hn⟩ := h
  refine beq_false_of_ne fun htop => ?_
  obtain ⟨rest, hrest⟩ := List.head?_eq_some_iff.1 htop
  rw [hrest] at hsegments
  obtain ⟨rfl, -⟩ := List.cons.inj hsegments
  cases hn

theorem Plain.parts_eq (h : p.Plain) : p.parts = (none, segments p.text) := by
  obtain ⟨n, ss, hsegments, hn⟩ := h
  rw [parts, hsegments]
  split
  · next heq =>
    obtain ⟨rfl, -⟩ := List.cons.inj heq
    cases hn
  · next heq =>
    obtain ⟨rfl, -⟩ := List.cons.inj heq
    cases hn
  · rfl

theorem Plain.steps_eq (h : p.Plain) : p.steps = (segments p.text).filterMap Step.ofSegment? := by
  rw [steps, h.parts_eq]
  rfl

theorem Plain.notMem_steps (h : p.Plain) {step : Step} (hstep : step = .top ∨ step = .here) :
    step ∉ p.steps := by
  rw [h.steps_eq, List.mem_filterMap]
  rintro ⟨s, -, hs⟩
  rcases Step.ofSegment?_cases s with hcase | hcase | hcase <;> rw [hcase] at hs <;>
    rcases hstep with rfl | rfl <;> cases hs

theorem Plain.isHere_eq (h : p.Plain) : p.isHere = false :=
  beq_false_of_ne fun hsteps => h.notMem_steps (.inr rfl) (hsteps ▸ List.mem_singleton_self _)

theorem exists_text_child (h : p.text ≠ []) (name : List Char) :
    ∃ t, (p.child name).text = t ++ '/' :: name ∧ (p.text = t ∨ p.text = t ++ ['/']) := by
  rw [child_eq h]
  by_cases hlast : p.text.getLast? = some '/'
  · obtain ⟨t, ht⟩ := List.getLast?_eq_some_iff.1 hlast
    refine ⟨t, ?_, .inr ht⟩
    rw [hlast, beq_self_eq_true, if_pos rfl, ht, List.append_assoc]
    rfl
  · refine ⟨p.text, ?_, .inl rfl⟩
    rw [beq_false_of_ne hlast, if_neg Bool.false_ne_true]

theorem Plain.child (h : p.Plain) (name : List Char) : (p.child name).Plain := by
  obtain ⟨t, hchild, htext⟩ := exists_text_child h.text_ne name
  obtain ⟨n, ss, hsegments, hn⟩ := h
  obtain ⟨n', ss', hss'⟩ := List.exists_cons_of_ne_nil (segments_ne_nil t)
  have hfirst : n' = n := by
    rcases htext with htext | htext
    · rw [htext, hss'] at hsegments
      exact (List.cons.inj hsegments).1
    · rw [htext, segments_append_slash, hss'] at hsegments
      exact (List.cons.inj hsegments).1
  refine ⟨n, ss' ++ segments name, ?_, hn⟩
  rw [hchild, segments_append_slash, hss', hfirst]
  rfl

theorem Plain.beneath (h : p.Plain) (hplace : ∀ n ∈ place, IsName n) : (p.beneath place).Plain := by
  have hsegments := segments_beneath (p := p) fun n hn => (hplace n hn).1
  cases place with
  | nil => exact h
  | cons n ns => exact ⟨n, _, hsegments, (hplace n List.mem_cons_self).isIdle⟩

theorem parts_fromTop (p : Path) : p.fromTop.parts = (some .top, segments p.text) := by
  obtain ⟨s, ss, hss⟩ := List.exists_cons_of_ne_nil (segments_ne_nil p.text)
  have hsegments : segments p.fromTop.text = [] :: s :: ss := congrArg ([] :: ·) hss
  rw [parts, hsegments, hss]

theorem steps_fromTop (p : Path) :
    p.fromTop.steps = .top :: (segments p.text).filterMap Step.ofSegment? := by
  rw [steps, parts_fromTop]
  rfl

theorem isHere_fromTop (p : Path) : p.fromTop.isHere = false := by
  refine beq_false_of_ne fun hsteps => ?_
  rw [steps_fromTop] at hsteps
  cases hsteps

/-! ### What is left of a path -/

/-- The last segment of the path takes a step. -/
def Ends (p : Path) : Prop := ∃ ss s, segments p.text = ss ++ [s] ∧ isIdle s = false

theorem Ends.beneath (h : p.Ends) (hplace : ∀ n ∈ place, IsName n) : (p.beneath place).Ends := by
  obtain ⟨ss, s, hsegments, hs⟩ := h
  refine ⟨place ++ ss, s, ?_, hs⟩
  rw [segments_beneath fun n hn => (hplace n hn).1, hsegments, List.append_assoc]

theorem trimRight_concat (hs : isIdle s = false) (ss : List (List Char)) :
    trimRight (ss ++ [s]) = ss ++ [s] := by
  rw [trimRight, List.reverse_append, List.reverse_singleton, List.singleton_append,
    List.dropWhile_cons_of_neg (Bool.eq_false_iff.1 hs), ← List.singleton_append,
    List.reverse_append, List.reverse_reverse, List.reverse_singleton]

theorem Ends.trimRight_eq (h : p.Ends) : trimRight (segments p.text) = segments p.text := by
  obtain ⟨ss, s, hsegments, hs⟩ := h
  rw [hsegments, trimRight_concat hs]

theorem trimRight_eq (h : ∀ n ∈ place, IsName n) : trimRight place = place := by
  rcases List.eq_nil_or_concat' place with rfl | ⟨ns, n, rfl⟩
  · rfl
  · exact trimRight_concat (h n (List.mem_append_right ns (List.mem_singleton_self n))).isIdle ns

theorem dropSteps_append (h : ∀ n ∈ place, IsName n) (ss : List (List Char)) :
    dropSteps place.length (place ++ ss) = ss.dropWhile isIdle := by
  induction place with
  | nil => rw [List.length_nil, List.nil_append, dropSteps]
  | cons n ns ih =>
    obtain ⟨hn, hns⟩ := List.forall_mem_cons.1 h
    rw [List.length_cons, List.cons_append, dropSteps, hn.isIdle, if_neg Bool.false_ne_true, ih hns]

theorem segments_intercalate (h : ∀ n ∈ place, '/' ∉ n) (hne : place ≠ []) :
    segments (['/'].intercalate place) = place := by
  obtain ⟨ns, n, rfl⟩ := (List.eq_nil_or_concat' place).resolve_left hne
  rw [List.forall_mem_append] at h
  rw [intercalate_append ns (List.cons_ne_nil n []), segments_beneath h.1, intercalate_singleton,
    segments_of_notMem (h.2 n (List.mem_singleton_self n))]

theorem filterMap_ofSegment? (h : ∀ n ∈ place, IsName n) :
    place.filterMap Step.ofSegment? = place.map .name := by
  rw [← List.filterMap_eq_map]
  exact List.filterMap_congr fun n hn => (h n hn).2

theorem steps_pathOf (h : ∀ n ∈ place, IsName n) :
    (Disk.pathOf place).steps = .top :: place.map .name := by
  refine (steps_fromTop ⟨['/'].intercalate place⟩).trans (congrArg _ ?_)
  by_cases hne : place = []
  · subst hne
    rfl
  · rw [segments_intercalate (fun n hn => (h n hn).1) hne, filterMap_ofSegment? h]

theorem parent?_pathOf (h : ∀ m ∈ place, IsName m) (hn : IsName n) :
    (Disk.pathOf (place ++ [n])).parent? = some (Disk.pathOf place) := by
  have hslash : ∀ m ∈ place ++ [n], '/' ∉ m := fun m hm =>
    (List.mem_append.1 hm).elim (fun hm => (h m hm).1) fun hm => List.mem_singleton.1 hm ▸ hn.1
  have hparts : (Disk.pathOf (place ++ [n])).parts = (some .top, place ++ [n]) := by
    refine (parts_fromTop ⟨['/'].intercalate (place ++ [n])⟩).trans ?_
    rw [segments_intercalate hslash (List.concat_ne_nil n place)]
  rw [parent?, hparts]
  simp only [trimRight_concat hn.isIdle, List.reverse_append, List.reverse_singleton,
    List.singleton_append, List.reverse_reverse, trimRight_eq h]
  rfl

/-- A path from the top that goes through a folder is seen from there as it is spelled from it. -/
theorem relativeTo?_fromTop (h : ∀ n ∈ place, IsName n) (hp : p.Plain) (hends : p.Ends) :
    (p.beneath place).fromTop.relativeTo? (Disk.pathOf place) = some p := by
  have hsegments := segments_beneath (p := p) fun n hn => (h n hn).1
  have hbegins : (Step.top :: place.map .name).isPrefixOf (p.beneath place).fromTop.steps := by
    rw [List.isPrefixOf_iff_prefix, steps_fromTop, hsegments, List.filterMap_append,
      filterMap_ofSegment? h]
    exact List.prefix_append _ _
  have hrest : dropSteps place.length (segments (p.beneath place).text) = segments p.text := by
    obtain ⟨n, ss, hfirst, hn⟩ := hp
    rw [hsegments, dropSteps_append h, hfirst,
      List.dropWhile_cons_of_neg (Bool.eq_false_iff.1 hn)]
  have hlength : (Step.top :: place.map Step.name).length - (some Step.top).toList.length =
      place.length := by
    rw [List.length_cons, List.length_map]
    rfl
  rw [relativeTo?, parts_fromTop, steps_pathOf h]
  simp only [if_pos hbegins, hlength, hrest, hends.trimRight_eq]
  exact congrArg (fun text => some (Path.mk text)) (intercalate_segments p.text)

/-- From no folder is a path seen that is spelled from the current one. -/
theorem Plain.relativeTo?_eq (hp : p.Plain) (h : ∀ n ∈ place, IsName n) :
    p.relativeTo? (Disk.pathOf place) = none := by
  have hbegins : ¬ (Step.top :: place.map .name).isPrefixOf p.steps := by
    rw [List.isPrefixOf_iff_prefix]
    exact fun hbegins => hp.notMem_steps (.inl rfl) (hbegins.subset List.mem_cons_self)
  rw [relativeTo?, hp.parts_eq, steps_pathOf h]
  exact if_neg hbegins

/-! ### Sets of paths -/

theorem mem_of_mem_insert {ps : List Path} (h : q ∈ insert p ps) : q = p ∨ q ∈ ps := by
  induction ps with
  | nil => exact .inl (List.mem_singleton.1 h)
  | cons r rs ih =>
    rw [insert] at h
    split at h
    · exact List.mem_cons.1 h
    · exact .inr h
    · rcases List.mem_cons.1 h with rfl | h
      · exact .inr List.mem_cons_self
      · exact (ih h).imp_right (List.mem_cons_of_mem r)

theorem mem_insert_of_mem {ps : List Path} (h : q ∈ ps) : q ∈ insert p ps := by
  induction ps with
  | nil => exact absurd h List.not_mem_nil
  | cons r rs ih =>
    rw [insert]
    split
    · exact List.mem_cons_of_mem p h
    · exact h
    · rcases List.mem_cons.1 h with rfl | h
      · exact List.mem_cons_self
      · exact List.mem_cons_of_mem r (ih h)

/-- A path is in the set it is added to, in this spelling or another. -/
theorem exists_mem_insert (p : Path) (ps : List Path) : ∃ q ∈ insert p ps, q.steps = p.steps := by
  induction ps with
  | nil => exact ⟨p, List.mem_singleton_self p, rfl⟩
  | cons r rs ih =>
    rw [insert]
    split
    · exact ⟨p, List.mem_cons_self, rfl⟩
    · next heq => exact ⟨r, List.mem_cons_self, (Std.LawfulEqOrd.eq_of_compare heq).symm⟩
    · obtain ⟨q, hq, hsteps⟩ := ih
      exact ⟨q, List.mem_cons_of_mem r hq, hsteps⟩

theorem mem_foldl_insert {ps set : List Path} :
    q ∈ ps.foldl (fun set p => insert p set) set → q ∈ ps ∨ q ∈ set := by
  induction ps generalizing set with
  | nil => exact .inr
  | cons r rs ih =>
    intro h
    rcases ih h with h | h
    · exact .inl (List.mem_cons_of_mem r h)
    · exact (mem_of_mem_insert h).imp_left fun h => List.mem_cons.2 (.inl h)

theorem mem_of_mem_sorted {ps : List Path} (h : q ∈ sorted ps) : q ∈ ps :=
  (mem_foldl_insert h).resolve_right List.not_mem_nil

theorem mem_foldl_insert_of_mem {ps set : List Path} (h : q ∈ set) :
    q ∈ ps.foldl (fun set p => insert p set) set := by
  induction ps generalizing set with
  | nil => exact h
  | cons r rs ih => exact ih (mem_insert_of_mem h)

theorem exists_mem_sorted {ps : List Path} (h : p ∈ ps) : ∃ q ∈ sorted ps, q.steps = p.steps := by
  obtain ⟨front, back, rfl⟩ := List.append_of_mem h
  obtain ⟨q, hq, hsteps⟩ := exists_mem_insert p (sorted front)
  refine ⟨q, ?_, hsteps⟩
  rw [sorted, List.foldl_append]
  show q ∈ back.foldl (fun set p => insert p set) (insert p (sorted front))
  exact mem_foldl_insert_of_mem hq

end Path

end MplWorkbench
