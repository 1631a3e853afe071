import MplWorkbench.Files.Pattern
import MplWorkbench.Proofs.Files.Path
import MplWorkbench.Proofs.Traversal

/-! Patterns that stand for one text.

In an escaped text each special character stands in brackets, so it is read as a
set of one. Whatever follows is read as it is behind any other text
(`isOk_parse_escape`). Such a pattern describes the text itself; without regard to
case, it describes those that differ from the text only in that.

`describesFolded_literally`: what the pattern for one text describes. -/
namespace MplWorkbench.Pattern

open MplWorkbench.Path (segments segments_cons segments_append_of_notMem)

variable {c : Char} {cs more : List Char} {place place' : Nat} {before : Option Char}

/-- The characters that stand for others. -/
def specials : List Char := ['?', '*', '[', ']']

theorem forall_mem_specials {P : Char → Prop} :
    (∀ c ∈ specials, P c) ↔ P '?' ∧ P '*' ∧ P '[' ∧ P ']' := by
  simp [specials]

/-- The token that stands for this character alone. -/
def lone (c : Char) : Token := if c ∈ specials then .oneOf [.single c] else .char c

/-- The pattern for this text alone. -/
def literally (text : List Char) : Pattern := ⟨escape text, text.map lone⟩

/-! ### Reading -/

theorem escape_cons_of_mem (h : c ∈ specials) (cs : List Char) :
    escape (c :: cs) = '[' :: c :: ']' :: escape cs := by
  rw [escape, List.flatMap_cons]
  exact congrArg (· ++ escape cs) (if_pos h)

theorem escape_cons_of_notMem (h : c ∉ specials) (cs : List Char) :
    escape (c :: cs) = c :: escape cs := by
  rw [escape, List.flatMap_cons]
  exact congrArg (· ++ escape cs) (if_neg h)

theorem escape_ne_nil {text : List Char} (h : text ≠ []) : escape text ≠ [] := by
  obtain ⟨c, cs, rfl⟩ := List.exists_cons_of_ne_nil h
  by_cases hc : c ∈ specials
  · rw [escape_cons_of_mem hc]
    exact List.cons_ne_nil _ _
  · rw [escape_cons_of_notMem hc]
    exact List.cons_ne_nil _ _

theorem head?_escape (text : List Char) :
    ((escape text).head? == some '/') = (text.head? == some '/') := by
  cases text with
  | nil => rfl
  | cons c cs =>
    by_cases hc : c ∈ specials
    · have hslash : c ≠ '/' := fun h => absurd (h ▸ hc) (by decide)
      rw [escape_cons_of_mem hc, List.head?_cons, List.head?_cons]
      exact (beq_false_of_ne fun h => hslash (Option.some.inj h)).symm
    · rw [escape_cons_of_notMem hc]
      rfl

theorem segments_escape (text : List Char) :
    segments (escape text) = (segments text).map escape := by
  induction text with
  | nil => rfl
  | cons c cs ih =>
    by_cases hc : c = '/'
    · subst hc
      rw [escape_cons_of_notMem (by decide)]
      exact congrArg ([] :: ·) ih
    · obtain ⟨s, ss, hss, hcons⟩ := segments_cons hc cs
      have hone : '/' ∉ escape [c] := by
        by_cases hspecial : c ∈ specials
        · rw [escape_cons_of_mem hspecial]
          simp [escape, Ne.symm hc]
        · rw [escape_cons_of_notMem hspecial]
          simp [escape, Ne.symm hc]
      have happend (cs : List Char) : escape (c :: cs) = escape [c] ++ escape cs := by
        rw [← List.singleton_append, escape, List.flatMap_append]
        rfl
      rw [happend, segments_append_of_notMem hone (ih.trans (congrArg _ hss)), hcons, List.map_cons,
        happend s]

theorem token_of_notMem (h : c ∉ ['?', '*', '[']) (place : Nat) (before : Option Char)
    (cs : List Char) : token place before c cs = .ok (.char c, 0) := by
  unfold token
  split
  · exact absurd (by decide) h
  · exact absurd (by decide) h
  · exact absurd (by decide) h
  · rfl

theorem token_bracket (h : c ∈ specials) (place : Nat) (before : Option Char) (cs : List Char) :
    token place before '[' (c :: ']' :: cs) = .ok (.oneOf [.single c], 2) := by
  have hranges : ranges? (c :: ']' :: cs) = some ([.single c], 2) := by
    rw [ranges?, List.takeWhile_cons_of_neg (by decide)]
    exact if_pos (Nat.le_add_left 1 _)
  have hset : set? (c :: ']' :: cs) = some (.oneOf [.single c], 2) := by
    unfold set?
    split
    · next heq =>
      obtain ⟨rfl, -⟩ := List.cons.inj heq
      exact absurd h (by decide)
    · rw [hranges]
      rfl
  rw [token, hset]

theorem tokensFrom_cons {t : Token} {taken : Nat}
    (h : token place before c cs = .ok (t, taken)) : tokensFrom place before (c :: cs) =
      (tokensFrom (place + taken + 1) (c :: cs)[taken]? (cs.drop taken)).map (t :: ·) := by
  rw [tokensFrom, h]
  show (do return t :: (← tokensFrom _ _ _)) = _
  cases tokensFrom (place + taken + 1) (c :: cs)[taken]? (cs.drop taken) <;> rfl

/-- A text is read as itself if it is escaped, and then what follows. -/
theorem exists_tokensFrom_escape (text : List Char) (place : Nat) (before : Option Char) :
    ∃ place' before', ∀ more, tokensFrom place before (escape text ++ more) =
      (tokensFrom place' before' more).map (text.map lone ++ ·) := by
  induction text generalizing place before with
  | nil =>
    refine ⟨place, before, fun more => ?_⟩
    show tokensFrom place before more = _
    cases tokensFrom place before more <;> rfl
  | cons c cs ih =>
    by_cases hc : c ∈ specials
    · obtain ⟨place', before', hmore⟩ := ih (place + 2 + 1) (some ']')
      refine ⟨place', before', fun more => ?_⟩
      rw [escape_cons_of_mem hc]
      show tokensFrom place before ('[' :: c :: ']' :: (escape cs ++ more)) = _
      rw [tokensFrom_cons (token_bracket hc place before _)]
      show (tokensFrom (place + 2 + 1) (some ']') (escape cs ++ more)).map _ = _
      rw [hmore, List.map_cons, lone, if_pos hc]
      cases tokensFrom place' before' more <;> rfl
    · obtain ⟨place', before', hmore⟩ := ih (place + 0 + 1) (some c)
      refine ⟨place', before', fun more => ?_⟩
      rw [escape_cons_of_notMem hc]
      show tokensFrom place before (c :: (escape cs ++ more)) = _
      rw [tokensFrom_cons (token_of_notMem (mt (List.mem_append_left [']']) hc) place before _)]
      show (tokensFrom (place + 0 + 1) (some c) (escape cs ++ more)).map _ = _
      rw [hmore, List.map_cons, lone, if_neg hc]
      cases tokensFrom place' before' more <;> rfl

theorem parse_escape (text : List Char) : parse (escape text) = .ok (literally text) := by
  obtain ⟨place', before', hmore⟩ := exists_tokensFrom_escape text 0 none
  have htokens := hmore []
  rw [List.append_nil, tokensFrom] at htokens
  rw [parse, htokens]
  show Except.ok (Pattern.mk (escape text) (text.map lone ++ [])) = _
  rw [List.append_nil]
  rfl

theorem toOption_token (place place' : Nat) (before : Option Char) (c : Char) (cs : List Char) :
    (token place before c cs).toOption = (token place' before c cs).toOption := by
  unfold token
  split
  · rfl
  · split
    · rfl
    · split
      · split <;> rfl
      · rfl
    · rfl
  · split <;> rfl
  · rfl

/-- Whether a text makes sense does not depend on the place it has in a pattern. -/
theorem toOption_tokensFrom (place place' : Nat) (before : Option Char) (cs : List Char) :
    (tokensFrom place before cs).toOption = (tokensFrom place' before cs).toOption := by
  induction hlength : cs.length using Nat.strongRecOn generalizing place place' before cs with
  | ind n ih =>
    cases cs with
    | nil => rw [tokensFrom, tokensFrom]
    | cons c cs =>
      have htoken := toOption_token place place' before c cs
      rw [tokensFrom, tokensFrom]
      cases h : token place before c cs with
      | error e =>
        cases h' : token place' before c cs with
        | error => rfl
        | ok => rw [h, h'] at htoken; cases htoken
      | ok found =>
        cases h' : token place' before c cs with
        | error => rw [h, h'] at htoken; cases htoken
        | ok found' =>
          rw [h, h'] at htoken
          obtain rfl := Option.some.inj htoken
          have hlt : (cs.drop found.2).length < n := by
            rw [List.length_drop, ← hlength, List.length_cons]
            omega
          have hrest := ih _ hlt (place + found.2 + 1) (place' + found.2 + 1)
            (c :: cs)[found.2]? (cs.drop found.2) rfl
          show (do return found.1 :: (← tokensFrom _ _ _)).toOption =
            (do return found.1 :: (← tokensFrom _ _ _)).toOption
          revert hrest
          cases tokensFrom (place + found.2 + 1) (c :: cs)[found.2]? (cs.drop found.2) <;>
            cases tokensFrom (place' + found.2 + 1) (c :: cs)[found.2]? (cs.drop found.2) <;>
            simp [Except.toOption, bind, Except.bind, pure, Except.pure]

theorem isOk_eq_isSome {α ε : Type} (a : Except ε α) : a.isOk = a.toOption.isSome := by
  cases a <;> rfl

/-- Behind a slash, a text makes sense whatever stands before. -/
theorem isOk_parse_escape (a more : List Char) : (parse (escape a ++ '/' :: more)).isOk =
    (tokensFrom 0 (some '/') more).isOk := by
  obtain ⟨place, before, hmore⟩ := exists_tokensFrom_escape a 0 none
  have hslash := tokensFrom_cons (token_of_notMem (by decide : '/' ∉ _) place before more)
  have hplace := toOption_tokensFrom (place + 0 + 1) 0 (some '/') more
  rw [isOk_eq_isSome (tokensFrom 0 (some '/') more), ← hplace, parse, hmore, hslash]
  show _ = (tokensFrom (place + 0 + 1) ('/' :: more)[0]? (more.drop 0)).toOption.isSome
  cases tokensFrom (place + 0 + 1) ('/' :: more)[0]? (more.drop 0) <;> rfl

/-! ### Matching -/

theorem isSpecial_toLower : ∀ c ∈ specials, c.toLower = c ∧ c.isAlpha = false :=
  forall_mem_specials.2 (by decide)

/-- No letter becomes what is no small letter. -/
theorem eq_of_toLower_eq {x : Char} (h : c.val.toNat < 97) (hx : x.toLower = c) : x = c := by
  unfold Char.toLower at hx
  split at hx
  · next hupper =>
    have hval : c.val.toNat = x.val.toNat + 32 := by
      rw [← hx]
      show (x.val + 32).toNat = _
      have hlow : 65 ≤ x.val.toNat := hupper.1
      have hhigh : x.val.toNat ≤ 90 := hupper.2
      have hshift : (32 : UInt32).toNat = 32 := rfl
      rw [UInt32.toNat_add, hshift]
      omega
    have hlow : 65 ≤ x.val.toNat := hupper.1
    omega
  · exact hx

theorem admits_char (c x : Char) : (Token.char c).admits true x ↔ x.toLower = c.toLower := by
  show (c == x || c.toLower == x.toLower) ↔ _
  rw [Bool.or_eq_true, beq_iff_eq, beq_iff_eq]
  exact ⟨fun h => h.elim (fun h => h ▸ rfl) Eq.symm, fun h => .inr h.symm⟩

theorem admits_lone (c x : Char) : (lone c).admits true x ↔ x.toLower = c.toLower := by
  by_cases hc : c ∈ specials
  · obtain ⟨hlower, halpha⟩ := isSpecial_toLower c hc
    have hmem : (lone c).admits true x ↔ x = c := by
      have hbounds : c ≤ x ∧ x ≤ c ↔ x = c :=
        ⟨fun h => Char.le_antisymm h.2 h.1, fun h => h ▸ ⟨Char.le_refl _, Char.le_refl _⟩⟩
      rw [lone, if_pos hc, ← hbounds]
      simp [Token.admits, inRanges, CharRange.memFolded, CharRange.mem, CharRange.single, halpha]
    rw [hmem, hlower]
    have hsmall : ∀ c ∈ specials, c.val.toNat < 97 := forall_mem_specials.2 (by decide)
    exact ⟨fun h => h ▸ hlower, eq_of_toLower_eq (hsmall c hc)⟩
  · rw [lone, if_neg hc, admits_char]

/-- Tokens that stand for one character each, whatever its case, describe the texts that differ from
theirs in case at most. -/
theorem accepts_map_iff {f : Char → Token} {text : List Char}
    (h : ∀ c ∈ text, ∀ x, (f c).admits true x ↔ x.toLower = c.toLower) (other : List Char) :
    accepts true (text.map f) other ↔ other.map Char.toLower = text.map Char.toLower := by
  induction text generalizing other with
  | nil => cases other <;> simp [accepts]
  | cons c cs ih =>
    obtain ⟨hc, hcs⟩ := List.forall_mem_cons.1 h
    have hself : (f c).admits true c := (hc c).2 rfl
    cases other with
    | nil =>
      have hnil : accepts true (f c :: cs.map f) [] = false := by
        cases hf : f c <;> first | rfl | (rw [hf] at hself; cases hself)
      simp [hnil]
    | cons x xs =>
      have hcons : accepts true (f c :: cs.map f) (x :: xs) =
          ((f c).admits true x && accepts true (cs.map f) xs) := by
        cases hf : f c <;> first | rfl | (rw [hf] at hself; cases hself)
      rw [List.map_cons, hcons, Bool.and_eq_true, hc, ih hcs, List.map_cons, List.map_cons,
        List.cons.injEq]

/-- Without regard to case, only texts are described that differ from this one in case at most. -/
theorem describesFolded_literally (text other : List Char) :
    (literally text).describesFolded other ↔ other.map Char.toLower = text.map Char.toLower := by
  rw [describesFolded_eq]
  exact accepts_map_iff (fun c _ => admits_lone c) other

theorem spansFolders_literally (text : List Char) : (literally text).spansFolders = false := by
  have hne : ∀ c, lone c ≠ .folders := by
    intro c
    unfold lone
    split <;> exact Token.noConfusion
  simp [spansFolders, literally, hne]

/-- A text without special characters is followed as it is. -/
theorem literal?_of_plain {text : List Char} (h : ∀ c ∈ text, c ∉ specials) :
    (literally text).literal? = some text := by
  show (text.map lone).mapM _ = _
  induction text with
  | nil => rfl
  | cons c cs ih =>
    obtain ⟨hc, hcs⟩ := List.forall_mem_cons.1 h
    rw [List.map_cons, List.mapM_cons, ih hcs, lone, if_neg hc]
    rfl

theorem literal?_of_spansFolders {p : Pattern} (h : p.spansFolders) : p.literal? = none :=
  mapM_eq_none (List.contains_iff_mem.1 h) rfl

/-- One with a special character is looked for. -/
theorem literal?_of_special {text : List Char} (h : ∃ c ∈ text, c ∈ specials) :
    (literally text).literal? = none := by
  obtain ⟨c, hc, hspecial⟩ := h
  refine mapM_eq_none (List.mem_map_of_mem hc) ?_
  rw [lone, if_pos hspecial]

end MplWorkbench.Pattern
