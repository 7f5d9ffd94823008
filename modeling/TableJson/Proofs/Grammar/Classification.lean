import TableJson.Proofs.Grammar.Independence
import TableJson.Proofs.Grammar.Relaxing
import TableJson.Proofs.Grammar.Spots
import TableJson.Proofs.Number.Nearest

/-!
# Classification — what is reported of a number

What a reading makes of a number depends on its literal alone, wherever the number stands and whatever has been read
before (`number_classified`).  When the number is dealt with, the session holds the parts of this literal and of no
other one, and they lie side by side in the text (`NumberParts.Covers`).

* `meets_spot`: a reading comes to deal with each number, if what stands before it is admitted and taken.
* `hears_of_meets`, `fails_of_meets`: then the event of its scalar is heard, or the reading fails where it starts.
* `Literal.Rounds`: a real has the sign of the literal and the magnitude nearest to the number that is written.  Reading
  passes over digits of an exponent from `Numeral.exponentLimit` on, which tells only for numbers with many thousands of
  digits (`Literal.Moderate`).
-/

namespace TableJson.Grammar

open Machine Number Utf8

/-! ## Parts of a text -/

/-- The bytes of a text between two offsets. -/
def slice (text : List Char) (start stop : Nat) : List UInt8 := ((encode text).drop start).take (stop - start)

theorem slice_append (before cs after : List Char) :
    slice (before ++ (cs ++ after)) (size before) (size before + size cs) = encode cs := by
  have hdrop : (encode (before ++ (cs ++ after))).drop (size before) = encode cs ++ encode after := by
    rw [encode_append, encode_append]
    exact List.drop_left
  rw [slice, hdrop, Nat.add_sub_cancel_left]
  exact List.take_left

/-- The parts are those of the literal `l` at the offset `o`: the integer is what stands between the start of the sign
and the end of the integral part, and the whole literal what stands between there and the end of the exponent, also
where parts are empty. -/
structure NumberParts.Covers (n : NumberParts) (text : List Char) (l : Literal) (o : Nat) : Prop where
  start : n.sign.start = o
  sign : n.sign.bytes = encode l.sign
  frac : n.frac.bytes = encode l.frac
  exp : n.exp.bytes = encode l.exp
  integer : slice text n.sign.start n.integral.stop = encode (l.sign ++ l.integral)
  whole : slice text n.sign.start n.exp.stop = encode l.text

theorem covers_parts (before after : List Char) (l : Literal) :
    (l.parts (size before)).Covers (before ++ (l.text ++ after)) l (size before) := by
  have hinteger : (l.parts (size before)).integral.stop = size before + size (l.sign ++ l.integral) := by
    simp only [Literal.parts, Match.stop, length_encode, size_append, Nat.add_assoc]
  have hwhole : (l.parts (size before)).exp.stop = size before + size l.text := by
    simp only [Literal.parts, Literal.text, Match.stop, length_encode, size_append, Nat.add_assoc]
  have htext : l.text ++ after = (l.sign ++ l.integral) ++ (l.frac ++ l.exp ++ after) := by
    simp only [Literal.text, List.append_assoc]
  refine ⟨rfl, rfl, rfl, rfl, ?_, ?_⟩
  · rw [hinteger, htext]
    exact slice_append ..
  · rw [hwhole]
    exact slice_append ..

/-! ## Dealing with a number -/

section Meets

variable {σ : Type} (consume : Consumer σ) (options : Options) (text : String) (c : σ)

/-- A reading comes to deal with a number in the session `s`: all actions before are taken.  (More room than a reading
needs makes no difference to it.) -/
def Meets (s : Session σ) : Prop :=
  ∃ n before m after, nesting options ≤ n ∧
    (reads n .jsonText (.text 0 text.toList)).2 = before ++ (.numberValue, m) :: after ∧
    feed (Session.act consume options text.utf8ByteSize) before { consumer := c } = (s, true)

variable {consume options text c} {s : Session σ}

/-- A reading comes to deal with each number, if what stands before it is admitted and its events are taken. -/
theorem meets_spot {d : Document} (htext : d.text = text.toList) {spot : Spot} (hspot : spot ∈ d.spots) {c' : σ}
    (hadmitted : spot.front.Admitted options 0) (hfeed : consume.feed spot.front.events c = (c', true)) :
    ∃ s, Meets consume options text c s ∧ s.consumer = c' ∧ s.memberName = spot.name ∧ s.failure = none ∧
      s.ended = false ∧ s.number = spot.literal.parts (size spot.front.text) := by
  -- the walk has room for the whole document, also where that nests too deep behind the number
  obtain ⟨e, he, halike, -, hreads⟩ := reads_document d (Nat.le_max_right (nesting options) (5 * d.tree.depth + 7))
  have hcomes : Comes consume options text.utf8ByteSize e.trace 0 e.text "" spot :=
    e.comes spot (mem_spots_of_alike he halike hspot)
  obtain ⟨before, m, after, rest, htrace, -, hpasses⟩ := hcomes
  obtain ⟨t, ht, hpassed⟩ := hpasses { consumer := c } c' rfl hadmitted hfeed
  rw [Nat.zero_add] at htrace
  refine ⟨{ t with number := spot.literal.parts (size spot.front.text) },
    ⟨max (nesting options) (5 * d.tree.depth + 7), before ++ spot.literal.trace (size spot.front.text), m, after,
      Nat.le_max_left .., ?_, ?_⟩,
    hpassed.consumer, hpassed.memberName, hpassed.failure, hpassed.ended, rfl⟩
  · rw [← htext, hreads, htrace, List.append_assoc]
  · rw [feed_append, ht]
    rfl

/-- What a reading that deals with a number leaves behind, and that it is stopped if something is refused. -/
theorem Meets.walk (h : Meets consume options text c s) : ∃ m after,
    (walkText consume options text c).2.context =
        (feed (Session.act consume options text.utf8ByteSize) ((.numberValue, m) :: after) s).1 ∧
      ((feed (Session.act consume options text.utf8ByteSize) ((.numberValue, m) :: after) s).2 = false →
        ∃ stop, (walkText consume options text c).1 = .halted (.aborted stop)) := by
  obtain ⟨n, before, m, after, hn, htrace, hbefore⟩ := h
  have hwalk := walkText_eq_run consume options text c hn
  rw [Cursor.start_eq_text] at hwalk
  have hfeed : feed (Session.act consume options text.utf8ByteSize)
      (actions (scan rows rowsPerTable n .jsonText (.text 0 text.toList)).2) { consumer := c } =
        feed (Session.act consume options text.utf8ByteSize) ((.numberValue, m) :: after) s := by
    change feed _ (reads n .jsonText (.text 0 text.toList)).2 _ = _
    rw [htrace, feed_append, hbefore]
  refine ⟨m, after, ?_⟩
  rw [hwalk]
  rcases hend : feed (Session.act consume options text.utf8ByteSize) ((.numberValue, m) :: after) s with ⟨t, _ | _⟩
  · rw [hend] at hfeed
    obtain ⟨hstop, hcontext⟩ := run_of_refusal (s := { context := { consumer := c } })
      (Session.act consume options text.utf8ByteSize) hfeed
    exact ⟨hcontext, fun _ => hstop⟩
  · rw [hend] at hfeed
    obtain ⟨-, hcontext⟩ := run_of_feed (s := { context := { consumer := c } })
      (Session.act consume options text.utf8ByteSize) hfeed
    exact ⟨hcontext, fun hrefused => by cases hrefused⟩

end Meets

/-! ## What is heard -/

section Heard

variable {σ : Type} {consume : Consumer σ} {options : Options} {text : String} {c c' : σ}
  {s : Session (σ × Log)}

/-- A consumer that takes some events keeps a log of them. -/
theorem feed_logged {es : List Event} (log : Log) (h : consume.feed es c = (c', true)) :
    consume.logged.feed es (c, log) = ((c', log ++ es.map (·, true)), true) := by
  induction es generalizing c log with
  | nil =>
    obtain rfl := (Prod.mk.inj h).1
    rw [List.map_nil, List.append_nil]
    rfl
  | cons e es ih =>
    rw [Consumer.feed] at h
    rcases hanswer : consume e c with ⟨c₁, _ | _⟩
    · rw [hanswer] at h
      cases (Prod.mk.inj h).2
    · rw [hanswer] at h
      have hlogged : consume.logged e (c, log) = ((c₁, log ++ [(e, true)]), true) := by
        simp only [Consumer.logged, hanswer]
      rw [Consumer.feed, hlogged]
      dsimp only
      rw [ih _ h, List.append_assoc, List.singleton_append, List.map_cons]

/-- A log only grows. -/
theorem feed_grows (tr : List (Action × Match)) (s : Session (σ × Log)) (size : Nat) :
    s.consumer.2 <+: (feed (Session.act consume.logged options size) tr s).1.consumer.2 := by
  induction tr generalizing s with
  | nil => exact List.prefix_refl _
  | cons p tr ih =>
    obtain ⟨a, m⟩ := p
    have hfirst := (act_agree consume options size a m s).grows
    rw [feed]
    revert hfirst
    rcases Session.act consume.logged options size a m s with ⟨t, _ | _⟩
    · exact fun hfirst => hfirst
    · exact fun hfirst => hfirst.trans (ih t)

/-- The event `e` is heard right after the events `before`, all of which were taken. -/
def Hears (log : Log) (before : List Event) (e : Event) : Prop :=
  ∃ answer more, log = before.map (·, true) ++ (e, answer) :: more

/-- The scalar that the parts of a number denote is heard next. -/
theorem hears_of_meets {before : List Event} {v : Scalar} (h : Meets consume.logged options text (c, []) s)
    (hlog : s.consumer.2 = before.map (·, true)) (hv : s.number.scalar? = some v) :
    Hears (heard consume options text c) before (.scalar s.memberName v) := by
  obtain ⟨m, after, hcontext, -⟩ := h.walk
  have hact : Session.act consume.logged options text.utf8ByteSize .numberValue m s =
      s.deliverScalar consume.logged v := by
    simp only [Session.act, Session.deliverNumber, hv]
  have hnext : (s.deliverScalar consume.logged v).1.consumer.2 <+:
      (walkText consume.logged options text (c, [])).2.context.consumer.2 := by
    rw [hcontext, feed, hact]
    rcases s.deliverScalar consume.logged v with ⟨t, _ | _⟩
    · exact List.prefix_refl _
    · exact feed_grows after t _
  obtain ⟨more, hmore⟩ := hnext.trans (log_prefix_read (fun _ _ => List.prefix_append _ _) options text (c, []))
  refine ⟨(consume (.scalar s.memberName v) s.consumer.1).2, more, ?_⟩
  rw [heard, ← hmore, ← hlog]
  exact List.append_assoc ..

/-- Where the parts of a number denote nothing, the reading fails at the number, and the failure is heard next. -/
theorem fails_of_meets {before : List Event} (h : Meets consume.logged options text (c, []) s)
    (hlog : s.consumer.2 = before.map (·, true)) (hfailure : s.failure = none) (hended : s.ended = false)
    (hv : s.number.scalar? = none) :
    (read consume options text c).result = .error (.locate .badNumber text s.number.sign.start) ∧
      ∃ answer, heard consume options text c = before.map (·, true) ++ [(.endJson false, answer)] := by
  obtain ⟨m, after, hcontext, hrefused⟩ := h.walk
  have hact : feed (Session.act consume.logged options text.utf8ByteSize) ((.numberValue, m) :: after) s =
      ({ s with memberName := "", failure := some ⟨.badNumber, some s.number.sign.start⟩ }, false) := by
    simp only [feed, Session.act, Session.deliverNumber, hv, Session.fail, hfailure]
  rw [hact] at hcontext hrefused
  obtain ⟨stop, hstop⟩ := hrefused rfl
  constructor
  · rw [(read_logged consume options text c []).2]
    exact result_of_failure consume.logged options text (c, []) (by rw [hstop, hcontext]; rfl)
  · refine ⟨(consume (.endJson false) s.consumer.1).2, ?_⟩
    rw [heard, read]
    rcases hwalk : walkText consume.logged options text (c, []) with ⟨outcome, state⟩
    rw [hwalk] at hcontext hstop
    dsimp only at hcontext hstop ⊢
    rw [hstop, hcontext]
    simp [Failure.ofOutcome, hended, Consumer.logged, hlog]

end Heard

/-! ## The number that is written -/

namespace Literal

/-- The digits of the exponent. -/
def exponentDigits (l : Literal) : List Char := (splitSign (l.exp.drop 1)).2

/-- The power of ten that is written. -/
def power (l : Literal) : Int :=
  if (splitSign (l.exp.drop 1)).1 then -(digitsValue l.exponentDigits : Int) else digitsValue l.exponentDigits

/-- The number that is written, without its sign. -/
def unsigned (l : Literal) : ℚ :=
  (l.whole + digitsValue (l.frac.drop 1) / 10 ^ (l.frac.drop 1).length) * 10 ^ l.power

/-- Reading passes over no digits of the exponent, or the number is too short for that to matter. -/
def Moderate (l : Literal) : Prop :=
  digitsValue l.exponentDigits < Numeral.exponentLimit ∨ l.text.length ≤ 2 ^ (15 : Nat)

variable (l : Literal)

theorem unsigned_eq : l.unsigned = l.numeral.coefficient * 10 ^ (l.power - (l.frac.drop 1).length) := by
  have hcoefficient : (l.numeral.coefficient : ℚ) =
      10 ^ (l.frac.drop 1).length * l.whole + digitsValue (l.frac.drop 1) := by
    rw [numeral, digitsValue_append]
    push_cast
    rfl
  rw [unsigned, hcoefficient, zpow_sub₀ (by norm_num), zpow_natCast]
  field_simp

theorem isFractionDigits : ∀ c ∈ l.frac.drop 1, c.isDigit = true := by
  obtain ⟨sign, int, frac, exp, hs, hi, hf, he⟩ := l
  rcases hf with rfl | ⟨-, hdigits⟩
  · exact fun c hc => absurd hc List.not_mem_nil
  · exact hdigits

/-- The exponent that is read is the one that is written, unless both lie beyond the limit. -/
theorem exponent_cases : l.exponent = l.power ∨
    (Numeral.exponentLimit ≤ l.exponent ∧ (Numeral.exponentLimit : Int) ≤ l.power) ∨
    (l.exponent ≤ -Numeral.exponentLimit ∧ l.power ≤ -(Numeral.exponentLimit : Int)) := by
  have hexponent : l.exponent = if (splitSign (l.exp.drop 1)).1 then -(Numeral.exponentValue l.exponentDigits : Int)
      else Numeral.exponentValue l.exponentDigits := rfl
  rw [hexponent, power]
  by_cases hlt : digitsValue l.exponentDigits < Numeral.exponentLimit
  · rw [Numeral.exponentValue_eq_digitsValue hlt]
    exact Or.inl rfl
  · have hvalue := Nat.not_lt.1 hlt
    have hread := le_exponentValue hvalue
    split
    · exact Or.inr (Or.inr ⟨by omega, by omega⟩)
    · exact Or.inr (Or.inl ⟨by omega, by omega⟩)

theorem exponent_eq_power (h : digitsValue l.exponentDigits < Numeral.exponentLimit) : l.exponent = l.power := by
  have hexponent : l.exponent = if (splitSign (l.exp.drop 1)).1 then -(Numeral.exponentValue l.exponentDigits : Int)
      else Numeral.exponentValue l.exponentDigits := rfl
  rw [hexponent, Numeral.exponentValue_eq_digitsValue h, power]

theorem length_digits_le : (l.integral ++ l.frac.drop 1).length ≤ l.text.length := by
  simp only [text, List.length_append, List.length_drop]
  omega

/-- So many digits fill no more than so many bits. -/
theorem log2_coefficient_le : Nat.log2 l.numeral.coefficient ≤ 4 * l.text.length := by
  have hdigits : ∀ c ∈ l.integral ++ l.frac.drop 1, c.isDigit = true := by
    intro c hc
    exact (List.mem_append.1 hc).elim (l.isIntegral.all_digits c) (l.isFractionDigits c)
  have hlt : l.numeral.coefficient < 2 ^ (4 * l.text.length + 1) :=
    calc l.numeral.coefficient < 10 ^ (l.integral ++ l.frac.drop 1).length := digitsValue_lt hdigits
      _ ≤ 10 ^ l.text.length := Nat.pow_le_pow_right (by decide) l.length_digits_le
      _ ≤ 16 ^ l.text.length := Nat.pow_le_pow_left (by decide) _
      _ = 2 ^ (4 * l.text.length) := by rw [Nat.pow_mul]
      _ ≤ 2 ^ (4 * l.text.length + 1) := Nat.pow_le_pow_right (by decide) (Nat.le_succ _)
  by_cases hzero : l.numeral.coefficient = 0
  · rw [hzero]
    exact Nat.zero_le _
  · exact Nat.le_of_lt_succ ((Nat.log2_lt hzero).2 hlt)

/-- A number of moderate size is read as the nearest magnitude. -/
theorem isNearest_unsigned (h : l.Moderate) : Format.binary64.IsNearest (l.numeral.magnitude .binary64) l.unsigned := by
  have hexact : l.exponent = l.power → Format.binary64.IsNearest (l.numeral.magnitude .binary64) l.unsigned := by
    intro heq
    rw [unsigned_eq, ← heq]
    exact magnitude_isNearest l.numeral
  rcases h with h | hshort
  · exact hexact (l.exponent_eq_power h)
  · have hlimit : (Numeral.exponentLimit : Int) = 2 ^ (16 : Nat) := rfl
    have hexponent : l.numeral.exponent = l.exponent - (l.frac.drop 1).length := rfl
    have hfrac : (l.frac.drop 1).length ≤ l.text.length := by
      have := l.length_digits_le
      rw [List.length_append] at this
      omega
    rcases l.exponent_cases with heq | ⟨hread, hwritten⟩ | ⟨hread, hwritten⟩
    · exact hexact heq
    · -- both exponents are too large for so few digits to matter
      rw [unsigned_eq]
      by_cases hzero : l.numeral.coefficient = 0
      · rw [hzero, Numeral.magnitude, if_pos hzero]
        exact isNearest_zero_mul _
      · rw [magnitude_of_large hzero (by omega)]
        exact isNearest_of_large hzero (by omega)
    · have hlog := l.log2_coefficient_le
      rw [unsigned_eq, magnitude_of_small (by omega)]
      exact isNearest_of_small (by omega)

/-- The literal is read as `x`, which has its sign and the magnitude nearest to the number that is written. -/
structure Rounds (x : Binary64) : Prop where
  read : Binary.read? l.text = some x
  negative : x.negative = decide (l.sign ≠ [])
  nearest : l.Moderate → Format.binary64.IsNearest x.magnitude l.unsigned

theorem rounds_real : l.Rounds l.real := by
  obtain ⟨hnegative, hmagnitude⟩ := parts_round l.numeral
  refine ⟨binary_read?_text l, hnegative, fun h => ?_⟩
  have hnearest := l.isNearest_unsigned h
  rwa [← hmagnitude] at hnearest

end Literal

/-! ## Classification -/

section Classification

variable {σ : Type} (consume : Consumer σ) (options : Options) (text : String) (c : σ)

/-- What a reading makes of the number at a spot, once it comes there. -/
structure Classified (spot : Spot) : Prop where
  /-- The number stands where the spot says. -/
  stands : ∃ rest, text.toList = spot.front.text ++ (spot.literal.text ++ rest)
  /-- The parts that are held when the number is dealt with are its own. -/
  parts : ∃ s, Meets consume options text c s ∧ s.number.Covers text.toList spot.literal (size spot.front.text)
  /-- No sign, no fraction and no exponent, and small enough for a word. -/
  uinteger : spot.literal.sign = [] → spot.literal.frac = [] → spot.literal.exp = [] →
    spot.literal.whole < 2 ^ (64 : Nat) → ∃ n : UInt64, n.toNat = spot.literal.whole ∧
      Hears (heard consume options text c) spot.front.events (.scalar spot.name (.uinteger n))
  /-- A sign, no fraction and no exponent, and small enough for a word. -/
  integer : spot.literal.sign = ['-'] → spot.literal.frac = [] → spot.literal.exp = [] →
    spot.literal.whole ≤ 2 ^ (63 : Nat) → ∃ n : Int64, n.toInt = -spot.literal.whole ∧
      Hears (heard consume options text c) spot.front.events (.scalar spot.name (.integer n))
  /-- All others are reals, or fail where they start, and then nothing is heard of them. -/
  real : ¬ spot.literal.FitsWord → ∃ x, spot.literal.Rounds x ∧
    (x.isFinite = true →
      Hears (heard consume options text c) spot.front.events (.scalar spot.name (.real x))) ∧
    (x.isFinite = false →
      (read consume options text c).result = .error (.locate .badNumber text (size spot.front.text)) ∧
      ∃ answer, heard consume options text c = spot.front.events.map (·, true) ++ [(.endJson false, answer)])

/-- Of each number in a document the event that its literal says is heard next after all events before it, or the
reading fails at its first byte, wherever it stands and whatever stands before it. -/
theorem number_classified {d : Document} (hd : d.text = text.toList) :
    d.spots.map Spot.literal = d.tree.literals ∧
      ∀ spot ∈ d.spots, ∀ c', spot.front.Admitted options 0 → consume.feed spot.front.events c = (c', true) →
        Classified consume options text c spot := by
  refine ⟨d.map_literal, fun spot hspot c' hadmitted hfeed => ?_⟩
  obtain ⟨rest, htext⟩ := d.text_of_mem_spots hspot
  obtain ⟨s, hmeets, -, -, -, -, hparts⟩ := meets_spot hd hspot hadmitted hfeed
  obtain ⟨t, hlogged, hlog, hname, hfailure, hended, hnumber⟩ :=
    meets_spot hd hspot hadmitted (feed_logged [] hfeed)
  have hlog : t.consumer.2 = spot.front.events.map (·, true) := congrArg Prod.snd hlog
  -- the scalar of the literal is heard if there is one
  have hheard : spot.literal.Representable →
      Hears (heard consume options text c) spot.front.events (.scalar spot.name spot.literal.scalar) := by
    intro hrepresentable
    rw [← hname]
    exact hears_of_meets hlogged hlog (hnumber ▸ (scalar?_eq_some_iff ..).2 ⟨hrepresentable, rfl⟩)
  have hwhole : spot.literal.FitsWord → spot.literal.Representable := fun hfits hn => absurd hfits hn
  refine ⟨⟨rest, hd ▸ htext⟩, ⟨s, hmeets, ?_⟩, ?_, ?_, ?_⟩
  · rw [hparts, ← hd, htext]
    exact covers_parts ..
  · intro hsign hfrac hexp hlt
    have hfits : spot.literal.FitsWord := ⟨hfrac, hexp, Or.inl ⟨hsign, hlt⟩⟩
    have h := hheard (hwhole hfits)
    rw [Literal.scalar, if_pos hfits, if_pos hsign] at h
    exact ⟨_, UInt64.toNat_ofNat_of_lt' hlt, h⟩
  · intro hsign hfrac hexp hle
    have hsign : spot.literal.sign ≠ [] := hsign ▸ List.cons_ne_nil _ _
    have hfits : spot.literal.FitsWord := ⟨hfrac, hexp, Or.inr ⟨hsign, hle⟩⟩
    have h := hheard (hwhole hfits)
    rw [Literal.scalar, if_pos hfits, if_neg hsign] at h
    exact ⟨_, Literal.toInt_signed hfits hsign, h⟩
  · intro hfits
    refine ⟨spot.literal.real, spot.literal.rounds_real, fun hfinite => ?_, fun hinfinite => ?_⟩
    · have h := hheard fun _ => hfinite
      rwa [Literal.scalar, if_neg hfits] at h
    · have hnone : t.number.scalar? = none := by
        rw [hnumber, Option.eq_none_iff_forall_ne_some]
        intro v hv
        have hfinite := ((scalar?_eq_some_iff ..).1 hv).1 hfits
        rw [hinfinite] at hfinite
        cases hfinite
      have hfails := fails_of_meets hlogged hlog hfailure hended hnone
      rwa [hnumber] at hfails

end Classification

/-- An array of two numbers. -/
def twoNumbers (l l' : Literal) : Document where
  before := .none
  tree := .container .array {} (.entries .item (.number l) (.cons {} .item (.number l') (.nil _))) {}
  after := .none

/-- The second of two numbers in an array. -/
def secondNumber (l l' : Literal) : Spot where
  front := { text := '[' :: (l.text ++ [',']), events := [.beginJson, .opened .array "", .scalar "" l.scalar]
             depth := 1, opened := 1, literals := [l] }
  name := ""
  literal := l'

/-- Nothing of a fraction is left when the integer behind it is read. -/
theorem number_classified_array : ∃ (x : Binary64) (n : Int64), Binary.read? ['0', '.', '5'] = some x ∧ n.toInt = -7 ∧
    Hears (heard Consumer.indifferent {} "[0.5,-7]" ()) [.beginJson, .opened .array "", .scalar "" (.real x)]
      (.scalar "" (.integer n)) := by
  let l : Literal := ⟨[], ['0'], ['.', '5'], [], Or.inl rfl, .zero,
    Or.inr (.point (by decide) (forall_mem_of_all (by decide))), Or.inl rfl⟩
  let l' : Literal := ⟨['-'], ['7'], [], [], Or.inr rfl,
    .digits (by decide) (by decide) (forall_mem_of_all (by decide)), Or.inl rfl, Or.inl rfl⟩
  have hd : (twoNumbers l l').text = String.toList "[0.5,-7]" := rfl
  have hspot : secondNumber l l' ∈ (twoNumbers l l').spots := List.mem_cons_of_mem _ (List.mem_cons_self ..)
  have hadmitted : (secondNumber l l').front.Admitted {} 0 := by
    refine ⟨by decide, fun n hn => ?_, Or.inr fun _ hs => absurd hs List.not_mem_nil⟩
    rw [List.mem_singleton.1 hn]
    exact fun _ => by decide
  obtain ⟨-, hclassified⟩ := number_classified Consumer.indifferent {} "[0.5,-7]" () hd
  obtain ⟨n, hn, hhears⟩ :=
    (hclassified (secondNumber l l') hspot () hadmitted rfl).integer rfl rfl rfl (by decide)
  exact ⟨l.real, n, binary_read?_text l, hn, hhears⟩

end TableJson.Grammar
