import LoxLang.Proofs.Receivers.Timeline
import LoxLang.Proofs.Running.Traced
import LoxLang.Proofs.Running.Watching
/-!
Output that stops. A sink that takes text up to its `n`-th line break is compared with one that takes
everything, over whole runs.

What is proved:
  1. what the limited sink has taken is all the text that was written to it, cut after its `n`-th line break
     (`Sink.write_limited`, `Sink.cutAfter_cut`);
  2. two runs that differ in their sinks do the same as long as what is written fits; the limited one fails
     with the first write that does not fit, and comes by nothing any more that the other one comes by after
     it (`Watched.Truncates`);
  3. so whatever is run, output that stops truncates what is written, and changes nothing else
     (`Session.output_failure_truncates`).
-/
namespace LoxLang

variable {α β : Type}

/-! Sinks -/

namespace Sink

/-- A text up to and including its `n`-th line break. -/
def cut (n : Nat) (text : String) : String := String.ofList (upToBreak n text.toList).1

/-- Nothing is cut off the text. -/
def Fits (n : Nat) (text : String) : Prop := cut n text = text

instance (n : Nat) (text : String) : Decidable (Fits n text) := inferInstanceAs (Decidable (_ = _))

/-- The sink that takes text up to the `n`-th line break, after this text was written to it. -/
def limited (n : Nat) (text : String) : Sink := ⟨cut n text, some (upToBreak n text.toList).2, false⟩

structure Open (s : Sink) : Prop where
  breaksLeft : s.breaksLeft = none
  flushes : s.flushFails = false

theorem open_unlimited : unlimited.Open := ⟨rfl, rfl⟩

theorem limited_empty (n : Nat) : limited n "" = ⟨"", some n, false⟩ := by
  cases n <;> rfl

theorem upToBreak_zero (cs : List Char) : upToBreak 0 cs = ([], 0) := by
  cases cs <;> rfl

/-- Text that follows other text is taken up to the breaks that this leaves. -/
theorem upToBreak_append : ∀ (n : Nat) (cs ds : List Char), upToBreak n (cs ++ ds) =
    ((upToBreak n cs).1 ++ (upToBreak (upToBreak n cs).2 ds).1, (upToBreak (upToBreak n cs).2 ds).2)
  | 0, cs, ds => by simp [upToBreak_zero]
  | n + 1, [], ds => by simp [upToBreak]
  | n + 1, c :: cs, ds => by
    rw [List.cons_append, upToBreak, upToBreak, upToBreak_append _ cs ds]
    rfl

/-- What is taken is the front of the text; if it is not all of it, no line break is left. -/
theorem upToBreak_fst : ∀ (n : Nat) (cs : List Char),
    ∃ rest, cs = (upToBreak n cs).1 ++ rest ∧ (rest ≠ [] → (upToBreak n cs).2 = 0)
  | 0, cs => ⟨cs, by rw [upToBreak_zero]; rfl, fun _ => by rw [upToBreak_zero]⟩
  | n + 1, [] => ⟨[], rfl, fun ne => absurd rfl ne⟩
  | n + 1, c :: cs => by
    obtain ⟨rest, front, left⟩ := upToBreak_fst (if c = '\n' then n else n + 1) cs
    exact ⟨rest, congrArg (c :: ·) front, left⟩

/-- The line breaks that are taken and those that are left are `n` together. -/
theorem upToBreak_count : ∀ (n : Nat) (cs : List Char),
    (upToBreak n cs).1.count '\n' + (upToBreak n cs).2 = n
  | 0, cs => by rw [upToBreak_zero]; rfl
  | n + 1, [] => by simp [upToBreak]
  | n + 1, c :: cs => by
    have ih := upToBreak_count (if c = '\n' then n else n + 1) cs
    show (c :: (upToBreak (if c = '\n' then n else n + 1) cs).1).count '\n' + (upToBreak _ cs).2 = n + 1
    by_cases break_ : c = '\n'
    · rw [if_pos break_] at ih ⊢
      rw [break_, List.count_cons_self]
      omega
    · rw [if_neg break_] at ih ⊢
      rw [List.count_cons_of_ne break_]
      exact ih

/-- Before the last character that is taken a line break is left. -/
theorem upToBreak_early : ∀ (n : Nat) (cs front : List Char), front <+: (upToBreak n cs).1 →
    front ≠ (upToBreak n cs).1 → front.count '\n' < n
  | 0, cs, front, before, ne => by
    rw [upToBreak_zero] at before ne
    exact absurd (List.prefix_nil.mp before) ne
  | n + 1, _, [], _, _ => Nat.succ_pos n
  | n + 1, [], c :: front, before, _ => by
    rw [upToBreak] at before
    cases List.prefix_nil.mp before
  | n + 1, c :: cs, d :: front, before, ne => by
    rw [upToBreak] at before ne
    obtain ⟨rfl, before⟩ := List.cons_prefix_cons.mp before
    have ih := upToBreak_early (if d = '\n' then n else n + 1) cs front before
      fun same => ne (congrArg (d :: ·) same)
    by_cases break_ : d = '\n'
    · rw [if_pos break_] at ih
      rw [break_, List.count_cons_self]
      omega
    · rw [if_neg break_] at ih
      rw [List.count_cons_of_ne break_]
      exact ih

/-- What is kept of a text ends right after its `n`-th line break, or is all of it if nothing follows such a
line break. -/
structure CutAfter (n : Nat) (text kept : String) : Prop where
  front : kept.toList <+: text.toList
  full : kept ≠ text → kept.toList.count '\n' = n
  first : ∀ shorter, shorter <+: kept.toList → shorter ≠ kept.toList → shorter.count '\n' < n

theorem cutAfter_cut (n : Nat) (text : String) : CutAfter n text (cut n text) := by
  have taken : (cut n text).toList = (upToBreak n text.toList).1 := String.toList_ofList
  obtain ⟨rest, front, left⟩ := upToBreak_fst n text.toList
  rw [← taken] at front
  refine ⟨⟨rest, front.symm⟩, fun ne => ?_, by rw [taken]; exact upToBreak_early n text.toList⟩
  have some_cut : rest ≠ [] := by
    rintro rfl
    rw [List.append_nil] at front
    exact ne (String.toList_inj.mp front.symm)
  have count := upToBreak_count n text.toList
  rw [left some_cut] at count
  rw [taken]
  exact count

theorem CutAfter.unique {n : Nat} {text kept kept' : String} (h : CutAfter n text kept)
    (h' : CutAfter n text kept') : kept = kept' := by
  have shorter {a b : String} (ha : CutAfter n text a) (hb : CutAfter n text b)
      (before : a.toList <+: b.toList) : a = b := by
    refine Decidable.byContradiction fun ne => ?_
    have ne_text : a ≠ text := by
      rintro rfl
      exact ne (String.toList_inj.mp (before.eq_of_length_le hb.front.length_le))
    have fewer := hb.first a.toList before fun same => ne (String.toList_inj.mp same)
    rw [ha.full ne_text] at fewer
    exact Nat.lt_irrefl n fewer
  rcases List.prefix_or_prefix_of_prefix h.front h'.front with before | before
  · exact shorter h h' before
  · exact (shorter h' h before).symm

theorem fits_iff {n : Nat} {text : String} : Fits n text ↔ (upToBreak n text.toList).1 = text.toList := by
  rw [Fits, cut, ← String.toList_inj, String.toList_ofList]

/-- A text that does not fit uses up all line breaks. -/
theorem left_of_not_fits {n : Nat} {text : String} (h : ¬ Fits n text) : (upToBreak n text.toList).2 = 0 := by
  obtain ⟨rest, front, left⟩ := upToBreak_fst n text.toList
  refine left ?_
  rintro rfl
  rw [List.append_nil] at front
  exact h (fits_iff.mpr front.symm)

/-- Where something is cut off, more text changes nothing. -/
theorem limited_of_not_fits {n : Nat} {text : String} (h : ¬ Fits n text) (more : String) :
    limited n (text ++ more) = limited n text := by
  unfold limited cut
  rw [String.toList_append, upToBreak_append, left_of_not_fits h, upToBreak_zero, List.append_nil]

theorem Fits.of_append {n : Nat} {text more : String} (h : Fits n (text ++ more)) : Fits n text := by
  refine Decidable.byContradiction fun cut_off => ?_
  have all := fits_iff.mp h
  rw [String.toList_append, upToBreak_append, left_of_not_fits cut_off, upToBreak_zero, List.append_nil] at all
  obtain ⟨rest, front, _⟩ := upToBreak_fst n text.toList
  have nothing : more.toList ++ rest = [] := by
    rw [all, List.append_assoc] at front
    exact List.self_eq_append_right.mp front
  rw [(List.append_eq_nil_iff.mp nothing).1, List.append_nil] at all
  exact cut_off (fits_iff.mpr all)

/-- A text that follows one that fits fits if its characters are all taken. -/
theorem fits_append {n : Nat} {text : String} (h : Fits n text) (more : String) :
    Fits n (text ++ more) ↔
      (upToBreak (upToBreak n text.toList).2 more.toList).1.length = more.length := by
  rw [fits_iff, String.toList_append, upToBreak_append, fits_iff.mp h, List.append_cancel_left_eq]
  obtain ⟨rest, front, _⟩ := upToBreak_fst (upToBreak n text.toList).2 more.toList
  refine ⟨fun all => by rw [all, String.length_toList], fun length => ?_⟩
  exact List.IsPrefix.eq_of_length ⟨rest, front.symm⟩ (length.trans String.length_toList.symm)

/-- What a limited sink has taken is what was written to it, cut. It takes another text as a whole if all
that was written then fits. -/
theorem write_limited {n : Nat} {text : String} (h : Fits n text) (more : String) :
    (limited n text).write more =
      (if Fits n (text ++ more) then .ok () else .error .closed, limited n (text ++ more)) := by
  have taken : limited n (text ++ more) =
      ⟨cut n text ++ String.ofList (upToBreak (upToBreak n text.toList).2 more.toList).1,
        some (upToBreak (upToBreak n text.toList).2 more.toList).2, false⟩ := by
    unfold limited cut
    rw [String.toList_append, upToBreak_append, String.ofList_append]
  rw [taken]
  simp only [fits_append h]
  rfl

theorem Open.write {s : Sink} (h : s.Open) (more : String) :
    s.write more = (.ok (), { s with text := s.text ++ more }) := by
  unfold Sink.write
  rw [h.breaksLeft]

end Sink
/-! Machines and marks -/

/-- The machine with a sink that takes text up to the `n`-th line break, after the same was written to it. -/
def Machine.limited (n : Nat) (m : Machine) : Machine := { m with out := .limited n m.out.text }

namespace Mark

/-- The mark of a run whose sink is limited. -/
def limited (n : Nat) : Mark → Mark
  | reached p part m => reached p part (m.limited n)
  | accessed p name depth m => accessed p name depth (m.limited n)

/-- Whether all that was written before the mark fits. -/
def fits (n : Nat) (mark : Mark) : Bool := decide (Sink.Fits n mark.state.out.text)

end Mark

/-- A step that takes no notice of the output. -/
def Run.Blind (r : Run α) : Prop :=
  ∀ m out, r { m with out } = (r m).leave fun m' => { m' with out }

namespace Run.Blind

theorem out_eq {r : Run α} (h : r.Blind) {m m' : Machine} (ended : (r m).state? = some m') :
    m'.out = m.out := by
  have same : r m = (r m).leave fun m' => { m' with out := m.out } := h m m.out
  rw [same] at ended
  obtain ⟨m₁, _, rfl⟩ := Outcome.of_state?_leave ended
  rfl

theorem lookUp (name : Token) (depth : Option Nat) : (lookUp name depth).Blind := by
  intro m out
  rw [lookUp_apply, lookUp_apply]
  show (m.named? name.lexeme depth).elim _ _ = _
  cases m.named? name.lexeme depth <;> rfl

theorem assign (name : Token) (depth : Option Nat) (v : Value) : (assign name depth v).Blind := by
  intro m out
  rw [assign_apply, assign_apply]
  show (m.holding? name.lexeme depth).elim _ _ = _
  cases m.holding? name.lexeme depth <;> rfl

end Run.Blind

/-- A limited sink takes a line as a whole if all that was written then fits. -/
theorem Run.writeLine_limited {n : Nat} {m : Machine} (fits : Sink.Fits n m.out.text) (text : String) :
    writeLine text (m.limited n) =
      if Sink.Fits n (m.out.text ++ (text ++ "\n")) then
        .ok () { m with out := .limited n (m.out.text ++ (text ++ "\n")) }
      else .fail (.output .closed) { m with out := .limited n (m.out.text ++ (text ++ "\n")) } := by
  rw [writeLine, Machine.limited, Sink.writeLine, Sink.write_limited fits]
  by_cases all : Sink.Fits n (m.out.text ++ (text ++ "\n"))
  · rw [if_pos all, if_pos all]
  · rw [if_neg all, if_neg all]

/-! Two runs -/

namespace Watched

/-- The second of two runs comes by what the first one comes by while what it has written fits. If all that
the first one writes fits, it ends in the same way; otherwise it fails. -/
structure Shortens (n : Nat) (r r' : Outcome α × Log) (new marks : List Mark) (m' : Machine) : Prop where
  noted : r'.2.marks = (new.filter (Mark.fits n)).map (Mark.limited n) ++ marks
  same : Sink.Fits n m'.out.text → r'.1 = r.1.leave (Machine.limited n) ∧ r'.2.origins = r.2.origins
  cut : ¬ Sink.Fits n m'.out.text →
    ∃ m'', r'.1 = .fail (.output .closed) m'' ∧ m''.out = .limited n m'.out.text

/-- What a watched run notes, and what becomes of it if its sink is limited. -/
structure Noted (n : Nat) (w : Watched α) (g : Log) (m : Machine) (new : List Mark) : Prop where
  marks : (w g m).2.marks = new ++ g.marks
  grows : ∀ mark ∈ new, m.out.Grows mark.state.out
  ends : ∀ m', (w g m).1.state? = some m' → m.out.Grows m'.out ∧ (m.out.Open → m'.out.Open)
  shortens : m.out.Open → Sink.Fits n m.out.text → ∀ g', g'.origins = g.origins →
    ∀ m', (w g m).1.state? = some m' → Shortens n (w g m) (w g' (m.limited n)) new g'.marks m'

/-- A limited sink truncates what the run writes, and nothing more. -/
def Truncates (n : Nat) (w : Watched α) : Prop := ∀ g m, ∃ new, Noted n w g m new

namespace Truncates

variable {n : Nat}

theorem lift {r : Run α} (h : r.Blind) : Truncates n (Watched.lift r) := by
  intro g m
  have kept {m' : Machine} (ended : (r m).state? = some m') : m'.out = m.out := h.out_eq ended
  refine ⟨[], rfl, (fun _ mem => nomatch mem), fun m' ended => ?_, fun _ fits g' origins m' ended =>
    ⟨rfl, fun _ => ⟨?_, origins⟩, fun cut_off => ?_⟩⟩
  · rw [kept ended]
    exact ⟨.refl _, id⟩
  · show r { m with out := .limited n m.out.text } = (r m).leave (Machine.limited n)
    rw [h, ← kept ended]
    replace ended : (r m).state? = some m' := ended
    cases eq : r m with
    | ok a m₁ =>
      rw [eq] at ended
      cases ended
      rfl
    | fail e m₁ =>
      rw [eq] at ended
      cases ended
      rfl
    | starved => rfl
  · rw [kept ended] at cut_off
    exact absurd fits cut_off

theorem note {w : Watched α} (value : (Nat → Option Site) → α)
    (change : (Nat → Option Site) → Nat → Option Site)
    (h : ∀ g m, w g m = (.ok (value g.origins) m, { g with origins := change g.origins })) :
    Truncates n w := by
  intro g m
  refine ⟨[], by rw [h]; rfl, (fun _ mem => nomatch mem), fun m' ended => ?_,
    fun _ fits g' origins m' ended => ?_⟩
  · rw [h] at ended
    cases ended
    exact ⟨.refl _, id⟩
  · rw [h] at ended
    cases ended
    rw [h, h, origins]
    exact ⟨rfl, fun _ => ⟨rfl, rfl⟩, fun cut_off => absurd fits cut_off⟩

theorem writeLine (text : String) : Truncates n (Watched.lift (Run.writeLine text)) := by
  intro g m
  have whole (isOpen : m.out.Open) : Run.writeLine text m =
      .ok () { m with out := { m.out with text := m.out.text ++ (text ++ "\n") } } := by
    rw [Run.writeLine, Sink.writeLine, isOpen.write]
  refine ⟨[], rfl, (fun _ mem => nomatch mem), fun m' ended => ⟨(Run.writeLine_step text).writes m m' ended,
    fun isOpen => ?_⟩, fun isOpen fits g' origins m' ended => ?_⟩
  · have ended : (Run.writeLine text m).state? = some m' := ended
    rw [whole isOpen] at ended
    cases ended
    exact ⟨isOpen.breaksLeft, isOpen.flushes⟩
  · have ended : (Run.writeLine text m).state? = some m' := ended
    rw [whole isOpen] at ended
    cases ended
    have front := Run.writeLine_limited fits text
    refine ⟨rfl, fun all => ⟨?_, origins⟩, fun cut_off => ?_⟩
    · show Run.writeLine text (m.limited n) = (Run.writeLine text m).leave (Machine.limited n)
      rw [front, if_pos all, whole isOpen]
      rfl
    · refine ⟨{ m with out := .limited n (m.out.text ++ (text ++ "\n")) }, ?_, rfl⟩
      show Run.writeLine text (m.limited n) = _
      rw [front, if_neg cut_off]

theorem mark {w : Watched Unit} (note : Machine → Mark) (state : ∀ m, (note m).state = m)
    (limited : ∀ m : Machine, note (m.limited n) = (note m).limited n)
    (h : ∀ g m, w g m = (.ok () m, { g with marks := note m :: g.marks })) : Truncates n w := by
  intro g m
  refine ⟨[note m], by rw [h]; rfl, fun mark mem => ?_, fun m' ended => ?_,
    fun _ fits g' origins m' ended => ?_⟩
  · rw [List.mem_singleton.mp mem, state]
    exact .refl _
  · rw [h] at ended
    cases ended
    exact ⟨.refl _, id⟩
  · rw [h] at ended
    cases ended
    have seen : (note m).fits n = true := by
      rw [Mark.fits, state]
      exact decide_eq_true fits
    rw [h, h]
    refine ⟨?_, fun _ => ⟨rfl, origins⟩, fun cut_off => absurd fits cut_off⟩
    rw [List.filter_cons_of_pos seen, limited]
    rfl

theorem bind {w : Watched α} {next : α → Watched β} (h : Truncates n w) (h' : ∀ a, Truncates n (next a)) :
    Truncates n (w >>= next) := by
  intro g m
  obtain ⟨new, first⟩ := h g m
  have whole (g : Log) (m : Machine) : (w >>= next) g m = Watched.bind w next g m := rfl
  cases eq : w g m with
  | mk o g₁ =>
  obtain ⟨marks, grows, ends, shortens⟩ := first
  rw [eq] at marks ends shortens
  cases o with
  | ok a m₁ =>
    have result : (w >>= next) g m = next a g₁ m₁ := by rw [whole, Watched.bind, eq]
    obtain ⟨new', marks', grows', ends', shortens'⟩ := h' a g₁ m₁
    obtain ⟨since, isOpen'⟩ := ends m₁ rfl
    refine ⟨new' ++ new, ?_, fun mark mem => ?_, fun m' ended => ?_, fun isOpen fits g' origins m' ended => ?_⟩
    · rw [result, marks', marks, List.append_assoc]
    · rcases List.mem_append.mp mem with late | early
      · exact since.trans (grows' mark late)
      · exact grows mark early
    · rw [result] at ended
      obtain ⟨later, isOpen''⟩ := ends' m' ended
      exact ⟨since.trans later, fun isOpen => isOpen'' (isOpen' isOpen)⟩
    · rw [result] at ended ⊢
      obtain ⟨noted, same, cut⟩ := shortens isOpen fits g' origins m₁ rfl
      rw [whole, Watched.bind]
      generalize w g' (m.limited n) = short at noted same cut ⊢
      obtain ⟨o', g₁'⟩ := short
      -- Either all that the first run wrote fits, and both go on, or the limited one has failed already.
      by_cases fits' : Sink.Fits n m₁.out.text
      · obtain ⟨same, origins'⟩ := same fits'
        cases same
        obtain ⟨noted', same', cut'⟩ := shortens' (isOpen' isOpen) fits' g₁' origins' m' ended
        refine ⟨?_, same', cut'⟩
        show (next a g₁' (m₁.limited n)).2.marks = _
        rw [noted', noted, List.filter_append, List.map_append, List.append_assoc]
      -- What the first run wrote did not fit; so nothing fits that comes after it.
      · have beyond {s : Sink} (later : m₁.out.Grows s) : ¬ Sink.Fits n s.text ∧
            Sink.limited n s.text = .limited n m₁.out.text := by
          obtain ⟨_, more, text⟩ := later
          rw [text]
          exact ⟨fun all => fits' all.of_append, Sink.limited_of_not_fits fits' more⟩
        obtain ⟨m'', failed, out⟩ := cut fits'
        cases failed
        obtain ⟨later, _⟩ := ends' m' ended
        have unseen : new'.filter (Mark.fits n) = [] :=
          List.filter_eq_nil_iff.mpr fun mark mem seen => (beyond (grows' mark mem)).1 (of_decide_eq_true seen)
        refine ⟨?_, fun all => absurd all (beyond later).1,
          fun _ => ⟨m'', rfl, out.trans (beyond later).2.symm⟩⟩
        rw [List.filter_append, unseen, List.nil_append]
        exact noted
  | fail e m₁ =>
    have result : (w >>= next) g m = (.fail e m₁, g₁) := by rw [whole, Watched.bind, eq]
    refine ⟨new, by rw [result]; exact marks, grows, fun m' ended => ?_,
      fun isOpen fits g' origins m' ended => ?_⟩
    · rw [result] at ended
      exact ends m' ended
    · rw [result] at ended ⊢
      obtain ⟨noted, same, cut⟩ := shortens isOpen fits g' origins m' ended
      rw [whole, Watched.bind]
      generalize w g' (m.limited n) = short at noted same cut ⊢
      obtain ⟨o', g₁'⟩ := short
      cases ended
      by_cases fits' : Sink.Fits n m₁.out.text
      · obtain ⟨same, origins'⟩ := same fits'
        cases same
        exact ⟨noted, fun _ => ⟨rfl, origins'⟩, fun cut_off => absurd fits' cut_off⟩
      · obtain ⟨m'', failed, out⟩ := cut fits'
        cases failed
        exact ⟨noted, fun all => absurd all fits', fun _ => ⟨m'', rfl, out⟩⟩
  | starved =>
    have result : (w >>= next) g m = (.starved, g₁) := by rw [whole, Watched.bind, eq]
    refine ⟨new, by rw [result]; exact marks, grows, fun m' ended => ?_, fun _ _ _ _ m' ended => ?_⟩
    · rw [result] at ended
      cases ended
    · rw [result] at ended
      cases ended

/-- Around a run that is entered and left without notice of the output. -/
theorem around {w w' : Watched α} {g : Log} {m : Machine} {new : List Mark} {enter : Machine}
    (leave : Machine → Machine) (h : Noted n w g enter new) (out : enter.out = m.out)
    (here : w' g m = ((w g enter).1.leave leave, (w g enter).2))
    (there : ∀ g', w' g' (m.limited n) = ((w g' (enter.limited n)).1.leave leave, (w g' (enter.limited n)).2))
    (left : ∀ m', (leave m').out = m'.out) (limited : ∀ m', leave (m'.limited n) = (leave m').limited n) :
    Noted n w' g m new := by
  obtain ⟨marks, grows, ends, shortens⟩ := h
  rw [out] at grows ends shortens
  refine ⟨by rw [here]; exact marks, grows, fun m' ended => ?_, fun isOpen fits g' origins m' ended => ?_⟩
  · rw [here] at ended
    obtain ⟨m₁, inside, rfl⟩ := Outcome.of_state?_leave ended
    rw [left]
    exact ends m₁ inside
  · rw [here] at ended ⊢
    obtain ⟨m₁, inside, rfl⟩ := Outcome.of_state?_leave ended
    obtain ⟨noted, same, cut⟩ := shortens isOpen fits g' origins m₁ inside
    rw [there]
    refine ⟨noted, fun all => ?_, fun cut_off => ?_⟩
    · rw [left] at all
      obtain ⟨same, origins'⟩ := same all
      refine ⟨?_, origins'⟩
      show ((w g' (enter.limited n)).1.leave leave) = ((w g enter).1.leave leave).leave (Machine.limited n)
      rw [same]
      cases (w g enter).1 with
      | ok a m₂ => exact congrArg (Outcome.ok a) (limited m₂)
      | fail e m₂ => exact congrArg (Outcome.fail e) (limited m₂)
      | starved => rfl
    · rw [left] at cut_off ⊢
      obtain ⟨m'', failed, out'⟩ := cut cut_off
      exact ⟨leave m'', by rw [failed]; rfl, (left m'').trans out'⟩

theorem within {w : Watched α} (e : Nat) (h : Truncates n w) : Truncates n (within e w) := by
  have inside (g : Log) (m : Machine) : Watched.within e w g m =
      ((w g { m with current := e }).1.leave fun m' => { m' with current := m.current },
        (w g { m with current := e }).2) := by
    unfold Watched.within
    rcases w g { m with current := e } with ⟨_ | _ | _, _⟩ <;> rfl
  intro g m
  obtain ⟨new, noted⟩ := h g { m with current := e }
  exact ⟨new, around _ noted rfl (inside g m) (fun g' => inside g' (m.limited n)) (fun _ => rfl) fun _ => rfl⟩

theorem asCall {limit : Option Nat} {w : Watched α} (paren : Token) (h : Truncates n w) :
    Truncates n (asCall limit paren w) := by
  intro g m
  by_cases full : limit.any (· ≤ m.callDepth) = true
  · have refused (g : Log) {m' : Machine} (same : m'.callDepth = m.callDepth) :
        Watched.asCall limit paren w g m' = Watched.lift (Run.fault paren .stackOverflow) g m' := by
      unfold Watched.asCall
      rw [same, if_pos full]
      rfl
    have fault : Truncates n (Watched.lift (Run.fault paren .stackOverflow : Run α)) := .lift fun _ _ => rfl
    obtain ⟨new, noted⟩ := fault g m
    exact ⟨new, around id noted rfl (refused g rfl) (fun g' => refused g' rfl) (fun _ => rfl) fun _ => rfl⟩
  · have inside (g : Log) {m' : Machine} (same : m'.callDepth = m.callDepth) :
        Watched.asCall limit paren w g m' =
          ((w g { m' with callDepth := m'.callDepth + 1 }).1.leave fun m' =>
              { m' with callDepth := m'.callDepth - 1 },
            (w g { m' with callDepth := m'.callDepth + 1 }).2) := by
      unfold Watched.asCall
      rw [same, if_neg full, ← same]
      rcases w g { m' with callDepth := m'.callDepth + 1 } with ⟨_ | _ | _, _⟩ <;> rfl
    obtain ⟨new, noted⟩ := h g { m with callDepth := m.callDepth + 1 }
    exact ⟨new, around _ noted rfl (inside g rfl) (fun g' => inside g' rfl) (fun _ => rfl) fun _ => rfl⟩

end Truncates

theorem reach_truncates (n : Nat) (p : Site) (part : Part) : Truncates n (reach p part) :=
  .mark (.reached p part) (fun _ => rfl) (fun _ => rfl) fun _ _ => rfl

theorem access_truncates (n : Nat) (p : Site) (name : Token) (depth : Option Nat) :
    Truncates n (access p name depth) :=
  .mark (.accessed p name depth) (fun _ => rfl) (fun _ => rfl) fun _ _ => rfl

theorem composes_truncates (n : Nat) (limit : Option Nat) :
    Composes limit fun _ _ w => Truncates n w where
  pure _ := .lift fun _ _ => rfl
  more _ h := h
  bind := .bind
  within e := .within e
  inside _ _ h := .bind (.lift fun _ _ => rfl) fun scope => .within scope h
  asCall paren := .asCall paren
  expression starts rest := starts ▸ .bind (reach_truncates n _ _) fun _ => rest
  statement starts rest := starts ▸ .bind (reach_truncates n _ _) fun _ => rest
  assignment value := .bind (reach_truncates n _ _) fun _ => .bind value fun v =>
    .bind (access_truncates n _ _ _) fun _ => .bind (.lift (.assign _ _ v)) fun _ => .lift fun _ _ => rfl
  access := access_truncates n
  noteOrigin id p := .note (fun _ => ()) (fun origins i => if i = id then p else origins i) fun _ _ => rfl
  originOf id := .note (fun origins => origins id) (fun origins => origins) fun _ _ => rfl
  starved := .lift fun _ _ => rfl
  fault _ _ := .lift fun _ _ => rfl
  newId := .lift fun _ _ => rfl
  current := .lift fun _ _ => rfl
  newEnvironment _ _ := .lift fun _ _ => rfl
  newInstance := .lift fun _ _ => rfl
  define _ _ := .lift fun _ _ => rfl
  lookUp name depth := .lift (.lookUp name depth)
  receiver _ := .lift fun _ _ => rfl
  field? _ _ := .lift fun _ _ => rfl
  setField _ _ _ := .lift fun _ _ => rfl
  writeLine text := .writeLine text
  readClock := .lift fun _ _ => rfl

variable {n : Nat} {limit : Option Nat}

theorem executeProgram_truncates (fuel : Nat) (p : Site) (program : List Stmt) :
    Truncates n (executeProgram limit fuel p program) :=
  executeProgram_every (composes_truncates n limit) fuel p program

/-- A sink that can be flushed is flushed without notice. -/
theorem interpret_eq {fuel : Nat} {p : Site} {program : List Stmt} {g : Log} {m m' : Machine}
    (ended : (executeProgram limit fuel p program g m).1.state? = some m')
    (flushes : m'.out.flushFails = false) :
    interpret limit fuel p program g m = executeProgram limit fuel p program g m := by
  have flushed : Run.flush m' = .ok () m' := by
    rw [Run.flush, Sink.flush, flushes]
    rfl
  unfold interpret
  rcases eq : executeProgram limit fuel p program g m with ⟨o, g'⟩
  rw [eq] at ended
  cases o with
  | ok a m₁ =>
    cases ended
    dsimp only
    rw [flushed]
  | fail e m₁ =>
    cases ended
    dsimp only
    rw [flushed]
  | starved => cases ended

/-- A limited sink truncates what a program writes; both sinks can be flushed at its end. -/
theorem interpret_shortens {fuel : Nat} {p : Site} {program : List Stmt} {g : Log} {m m₁ : Machine}
    (isOpen : m.out.Open) (fits : Sink.Fits n m.out.text)
    (ended : (interpret limit fuel p program g m).1.state? = some m₁) :
    ∃ new, (interpret limit fuel p program g m).2.marks = new ++ g.marks ∧
      Shortens n (interpret limit fuel p program g m) (interpret limit fuel p program g (m.limited n))
        new g.marks m₁ := by
  have truncates : Truncates n (executeProgram limit fuel p program) := executeProgram_truncates fuel p program
  obtain ⟨new, marks, _, ends, shortens⟩ := truncates g m
  obtain ⟨m', ended'⟩ : ∃ m', (executeProgram limit fuel p program g m).1.state? = some m' := by
    unfold interpret at ended
    rcases eq : executeProgram limit fuel p program g m with ⟨_ | _ | _, g'⟩
    · exact ⟨_, rfl⟩
    · exact ⟨_, rfl⟩
    · rw [eq] at ended
      cases ended
  -- Flushing fails for neither sink, so the end is that of the statements.
  have whole := interpret_eq ended' ((ends m' ended').2 isOpen).flushes
  rw [whole, ended'] at ended
  cases ended
  rw [whole]
  have short := shortens isOpen fits g rfl m₁ ended'
  obtain ⟨m'', ended'', flushes⟩ : ∃ m'',
      (executeProgram limit fuel p program g (m.limited n)).1.state? = some m'' ∧
        m''.out.flushFails = false := by
    by_cases all : Sink.Fits n m₁.out.text
    · refine ⟨m₁.limited n, ?_, rfl⟩
      rw [(short.same all).1]
      cases eq : (executeProgram limit fuel p program g m).1 with
      | ok a m₂ =>
        rw [eq] at ended'
        cases ended'
        rfl
      | fail e m₂ =>
        rw [eq] at ended'
        cases ended'
        rfl
      | starved =>
        rw [eq] at ended'
        cases ended'
    · obtain ⟨m'', failed, out⟩ := short.cut all
      exact ⟨m'', by rw [failed]; rfl, by rw [out]; rfl⟩
  rw [interpret_eq ended'' flushes]
  exact ⟨new, marks, short⟩

end Watched

/-! Sessions -/

namespace Session

def writing (s : Session) (out : Sink) : Session := { s with machine := { s.machine with out } }

/-- What is reported about the names of a source that is executed. -/
def Input.warnings (input : Input) : List String :=
  input.programs.flatMap fun program => (Resolution.ofProgram program).2.warnings.map Warning.text

/-- What becomes of a source whose output stops after `n` line breaks, told by what becomes of it if the
output never fails. The session before is `s`, with the log `g`. -/
structure Truncated (n : Nat) (warnings : List String) (s : Session) (g : Log) (status : Status) (s₁ : Session)
    (g₁ : Log) (status' : Status) (s' : Session) (g' : Log) : Prop where
  accepted : Sink.CutAfter n s₁.machine.out.text s'.machine.out.text
  whole : s'.machine.out.text = s₁.machine.out.text →
    status' = status ∧ s'.reports = s₁.reports ∧ { s'.machine with out := s₁.machine.out } = s₁.machine
  cut_off : s'.machine.out.text ≠ s₁.machine.out.text →
    status' = .runtimeError ∧ s'.reports = (s.reports.reportAll warnings).report "output closed"
  /-- The run comes by what the other one comes by before it writes what does not fit, and by nothing else. -/
  noted : ∃ new, g₁.marks = new ++ g.marks ∧
    g'.marks = (new.filter (Mark.fits n)).map (Mark.limited n) ++ g.marks

def conclude (s : Session) : Outcome Unit → Option (Status × Session)
  | .ok _ machine => some (.ok, { s with machine })
  | .fail e machine => some (.runtimeError, { s with machine }.report [e.text])
  | .starved => none

theorem watchExecute_of_accepted (fuel : Nat) {program : List Stmt} (s : Session) (g : Log)
    (accepted : (Resolution.ofProgram program).2.errors = []) :
    s.watchExecute fuel program g =
      let r := Watched.interpret (some maxCallDepth) fuel (Site.root program) (Resolution.ofProgram program).1
        g s.machine
      ((s.report ((Resolution.ofProgram program).2.warnings.map Warning.text)).conclude r.1, r.2) := by
  unfold watchExecute
  dsimp only [report]
  rw [if_pos (List.isEmpty_iff.mpr accepted)]
  rcases Watched.interpret (some maxCallDepth) fuel (Site.root program) (Resolution.ofProgram program).1
    g s.machine with ⟨_ | _ | _, _⟩ <;> rfl

theorem conclude_eq {t s₁ : Session} {o : Outcome Unit} {status : Status}
    (ended : t.conclude o = some (status, s₁)) : o.state? = some s₁.machine := by
  cases o with
  | ok _ m => cases ended; rfl
  | fail e m => cases ended; rfl
  | starved => cases ended

/-- Two sessions that go on after a program and after the same with its output limited. -/
theorem conclude_truncates {n : Nat} {warnings : List String} {s t s₁ : Session} (t' : Session) {g : Log}
    {r r' : Outcome Unit × Log} {new : List Mark} {status : Status}
    (reports : t.reports = s.reports.reportAll warnings) (same : t'.reports = t.reports)
    (ended : t.conclude r.1 = some (status, s₁)) (marks : r.2.marks = new ++ g.marks)
    (h : Watched.Shortens n r r' new g.marks s₁.machine) :
    ∃ status' s', t'.conclude r'.1 = some (status', s') ∧
      Truncated n warnings s g status s₁ r.2 status' s' r'.2 := by
  -- What is written fits, and then the session goes on as it did; or it does not, and the output is closed.
  by_cases fits : Sink.Fits n s₁.machine.out.text
  · obtain ⟨outcome, _⟩ := h.same fits
    have kept : ∃ s', t'.conclude r'.1 = some (status, s') ∧ s'.machine = s₁.machine.limited n ∧
        s'.reports = s₁.reports := by
      rw [outcome]
      cases eq : r.1 with
      | ok _ m =>
        rw [eq] at ended
        cases ended
        exact ⟨_, rfl, rfl, same⟩
      | fail e m =>
        rw [eq] at ended
        cases ended
        exact ⟨_, rfl, rfl, congrArg (·.reportAll [e.text]) same⟩
      | starved => rw [eq] at ended; cases ended
    obtain ⟨s', eq, machine, reports'⟩ := kept
    have text : s'.machine.out.text = s₁.machine.out.text := by
      rw [machine]
      exact fits
    refine ⟨status, s', eq, ?_, fun _ => ⟨rfl, reports', by rw [machine]; rfl⟩, fun ne => absurd text ne,
      new, marks, h.noted⟩
    rw [machine]
    exact Sink.cutAfter_cut n _
  · obtain ⟨m'', failed, out⟩ := h.cut fits
    have text : m''.out.text = Sink.cut n s₁.machine.out.text := by rw [out]; rfl
    refine ⟨.runtimeError, { t' with machine := m'' }.report [(Failure.output .closed).text],
      by rw [failed]; rfl, ?_, fun whole => absurd (text.symm.trans whole) fits, fun _ => ⟨rfl, ?_⟩,
      new, marks, h.noted⟩
    · show Sink.CutAfter n _ m''.out.text
      rw [text]
      exact Sink.cutAfter_cut n _
    · show t'.reports.reportAll [_] = _
      rw [same, reports]
      rfl

theorem watchExecute_truncates (n : Nat) {fuel : Nat} {program : List Stmt} {s s₁ : Session} {g g₁ : Log}
    {status : Status} (accepted : (Resolution.ofProgram program).2.errors = [])
    (ended : (s.writing .unlimited).watchExecute fuel program g = (some (status, s₁), g₁)) :
    ∃ status' s' g', (s.writing ⟨"", some n, false⟩).watchExecute fuel program g = (some (status', s'), g') ∧
      Truncated n ((Resolution.ofProgram program).2.warnings.map Warning.text) s g status s₁ g₁
        status' s' g' := by
  have isOpen : (s.writing .unlimited).machine.out.Open := Sink.open_unlimited
  have fits : Sink.Fits n (s.writing .unlimited).machine.out.text := congrArg Sink.text (Sink.limited_empty n)
  have limited : (s.writing ⟨"", some n, false⟩).machine = (s.writing .unlimited).machine.limited n :=
    congrArg (fun out => { s.machine with out }) (Sink.limited_empty n).symm
  rw [watchExecute_of_accepted fuel _ g accepted] at ended ⊢
  rw [limited]
  dsimp only at ended ⊢
  obtain ⟨concluded, rfl⟩ := Prod.ext_iff.mp ended
  obtain ⟨new, marks, shortens⟩ := Watched.interpret_shortens (n := n) isOpen fits (conclude_eq concluded)
  obtain ⟨status', s', concluded', truncated⟩ := conclude_truncates (s := s)
    ((s.writing ⟨"", some n, false⟩).report ((Resolution.ofProgram program).2.warnings.map Warning.text))
    rfl rfl concluded marks shortens
  exact ⟨status', s', _, Prod.ext concluded' rfl, truncated⟩

/-- A source that is not refused is without faults, and its program is executed. -/
theorem executed_of_watchFinish {fuel : Nat} {scan : Scan} {parsed : Except (List SyntaxError) (List Stmt)}
    {s s₁ : Session} {g g₁ : Log} {status : Status} (clean : status ≠ .staticError)
    (ended : s.watchFinish fuel scan parsed g = (some (status, s₁), g₁)) :
    ∃ tree, parsed = .ok tree ∧ scan.errors = [] ∧ (Resolution.ofProgram tree).2.errors = [] := by
  unfold watchFinish at ended
  cases parsed with
  | error errors =>
    cases ended
    exact absurd rfl clean
  | ok tree =>
    dsimp only at ended
    split at ended
    · rename_i scanned
      unfold watchExecute at ended
      dsimp only at ended
      split at ended
      · rename_i accepted
        exact ⟨tree, rfl, List.isEmpty_iff.mp scanned, List.isEmpty_iff.mp accepted⟩
      · cases ended
        exact absurd rfl clean
    · cases ended
      exact absurd rfl clean

theorem watchFinish_of_executed {fuel : Nat} {scan : Scan} {tree : List Stmt} {s : Session} {g : Log}
    (scanned : scan.errors = []) : s.watchFinish fuel scan (.ok tree) g = s.watchExecute fuel tree g := by
  unfold watchFinish
  rw [scanned]
  rfl

theorem watchFinish_truncates (n : Nat) {fuel : Nat} (input : Input) {s s₁ : Session} {g g₁ : Log}
    {status : Status} (clean : status ≠ .staticError)
    (ended : (s.writing .unlimited).watchFinish fuel input.scan input.parsed g = (some (status, s₁), g₁)) :
    ∃ status' s' g',
      (s.writing ⟨"", some n, false⟩).watchFinish fuel input.scan input.parsed g = (some (status', s'), g') ∧
      Truncated n input.warnings s g status s₁ g₁ status' s' g' := by
  obtain ⟨tree, parsed, scanned, accepted⟩ := executed_of_watchFinish clean ended
  have programs : input.programs = [tree] := by
    rw [Input.programs, parsed, scanned, Except.toOption, Option.toList_some, List.filter_cons_of_pos,
      List.filter_nil]
    rw [accepted]
    rfl
  have warnings : input.warnings = (Resolution.ofProgram tree).2.warnings.map Warning.text := by
    rw [Input.warnings, programs, List.flatMap_cons, List.flatMap_nil, List.append_nil]
  rw [parsed, watchFinish_of_executed scanned] at ended ⊢
  rw [warnings]
  exact watchExecute_truncates n accepted ended

theorem truncated_blank (n : Nat) (input : Input) (s : Session) (g : Log) :
    Truncated n input.warnings s g .ok (s.writing .unlimited) g .ok (s.writing ⟨"", some n, false⟩) g := by
  have text : (⟨"", some n, false⟩ : Sink).text = Sink.cut n "" :=
    (congrArg Sink.text (Sink.limited_empty n)).symm
  refine ⟨?_, fun _ => ⟨rfl, rfl, rfl⟩, fun ne => absurd rfl ne, [], rfl, rfl⟩
  show Sink.CutAfter n "" (⟨"", some n, false⟩ : Sink).text
  rw [text]
  exact Sink.cutAfter_cut n ""

/-- Output that stops truncates what a source writes, and does nothing more. If a source without faults
comes to an end while its output takes everything, it comes to an end while its output stops after `n` line
breaks. What is then taken is what was written, cut after its `n`-th line break. If nothing is cut off, the
status, the reports and the state are the same. If something is, the run failed, with the failure of the
output as the only report on it, and nothing was evaluated after that. -/
theorem output_failure_truncates (n fuel : Nat) (input : Input) (s : Session) (g : Log) {status : Status}
    {s₁ : Session} {g₁ : Log} (clean : status ≠ .staticError)
    (ended : input.watch fuel (s.writing .unlimited) g = (some (status, s₁), g₁)) :
    ∃ status' s' g', input.watch fuel (s.writing ⟨"", some n, false⟩) g = (some (status', s'), g') ∧
      input.run fuel (s.writing .unlimited) = some (status, s₁) ∧
      input.run fuel (s.writing ⟨"", some n, false⟩) = some (status', s') ∧
      Truncated n input.warnings s g status s₁ g₁ status' s' g' := by
  have watched : ∃ status' s' g',
      input.watch fuel (s.writing ⟨"", some n, false⟩) g = (some (status', s'), g') ∧
      Truncated n input.warnings s g status s₁ g₁ status' s' g' := by
    cases input with
    | program source => exact watchFinish_truncates n (.program source) clean ended
    | line text =>
      unfold Input.watch at ended ⊢
      dsimp only at ended ⊢
      by_cases blank : Text.allBlank text = true
      · rw [if_pos blank] at ended ⊢
        cases ended
        exact ⟨_, _, _, rfl, truncated_blank n _ s g⟩
      · rw [if_neg blank] at ended ⊢
        exact watchFinish_truncates n (.line text) clean ended
  obtain ⟨status', s', g', ended', truncated⟩ := watched
  refine ⟨status', s', g', ended', ?_, ?_, truncated⟩
  · rw [← input.watch_eq fuel _ g, ended]
  · rw [← input.watch_eq fuel _ g, ended']

/-- Output that stops in a call, after the first of three lines. -/
theorem output_failure_truncates_call :
    let input := Input.program "fun f()\x7bprint \"a\"; print \"b\"; return nil;\x7d f(); print \"c\";"
    let s := Session.initial .unlimited .unlimited fun _ => 0
    ∃ s', input.run 30 (s.writing ⟨"", some 1, false⟩) = some (.runtimeError, s') ∧
      s'.machine.out.text = "a\n" ∧ s'.reports = s.reports.report "output closed" := by
  intro input s
  have ends : (input.watch 30 (s.writing .unlimited) Log.empty).1.any
      (fun r => decide (r.1 = .ok) && decide (r.2.machine.out.text = "a\nb\nc\n")) = true := by decide +kernel
  obtain ⟨⟨status, s₁⟩, ended, known⟩ := (Option.any_eq_true _ _).mp ends
  obtain ⟨ok, text⟩ := (Bool.and_eq_true _ _).mp known
  have ok : status = .ok := of_decide_eq_true ok
  have text : s₁.machine.out.text = "a\nb\nc\n" := of_decide_eq_true text
  obtain ⟨status', s', g', _, _, run, truncated⟩ :=
    output_failure_truncates 1 30 input s Log.empty (by rw [ok]; nofun) (Prod.ext ended rfl)
  have accepted : s'.machine.out.text = "a\n" := by
    have cut : Sink.cut 1 s₁.machine.out.text = "a\n" := by rw [text]; decide +kernel
    rw [truncated.accepted.unique (Sink.cutAfter_cut 1 _), cut]
  obtain ⟨failed, reports⟩ := truncated.cut_off (by rw [accepted, text]; decide)
  have silent : input.warnings = [] := by decide +kernel
  rw [silent] at reports
  exact ⟨s', failed ▸ run, accepted, reports⟩

end Session

end LoxLang
