import Mathlib.Algebra.Group.Nat.Defs
import Mathlib.Data.List.Basic
import Mathlib.Data.List.Forall2

/-!
# Readers over a byte cursor, and exact decoders

A `Reader` runs over an input with a position, may fail, and leaves the cursor where it got to
even when it fails. `Exact r P enc` says that `r` is the decoder of the format `enc` on the values
with `P`, in both directions at once: from a cursor, `r` returns `a` precisely when `P a` holds
and the unread input starts with `enc a`, and then it has consumed exactly `enc a`.

Positions are machine words: an input is shorter than `limit`, and what follows from an encoding
being that short may be assumed (`Exact.congr`).

Results:
* `Exact.bind`: exact decoders compose; the rest of the decoder may depend on what was read;
* `Exact.replicate`, `Exact.each`: a counted loop decodes a list of that length, a sequence of
  readings a list with a value for each;
* `Exact.eq_of_isPrefix`: no encoding is a proper beginning of another;
* `Exact.run_iff`, `Exact.run_end_iff`: run on a whole input, an exact decoder that must end at
  the end of the input is the inverse of the encoding.
-/

namespace Keepstone.Lib

variable {ε α β : Type}

/-- An input with a read position. -/
structure Cursor where
  /-- The whole input. -/
  input : List UInt8
  /-- How much of it has been read. -/
  pos : Nat
  deriving DecidableEq, Repr

/-- A computation that reads from a cursor. -/
def Reader (ε α : Type) := Cursor → Except ε α × Cursor

namespace Reader

instance : Monad (Reader ε) where
  pure a := fun c => (.ok a, c)
  bind r k := fun c =>
    match r c with
    | (.ok a, c') => k a c'
    | (.error e, c') => (.error e, c')

/-- Give up with an error. -/
def fail (e : ε) : Reader ε α := fun c => (.error e, c)

/-- Go on only if `p`. -/
def ensure (p : Prop) [Decidable p] (e : ε) : Reader ε Unit := if p then pure () else fail e

/-- The same reading with its errors replaced. -/
def mapErr {ε' : Type} (f : ε → ε') (r : Reader ε α) : Reader ε' α := fun c =>
  ((r c).1.mapError f, (r c).2)

/-- `n` readings in a row. -/
def replicate (r : Reader ε α) : Nat → Reader ε (List α)
  | 0 => pure []
  | n + 1 => do
    let a ← r
    let rest ← r.replicate n
    pure (a :: rest)

/-- The readings `r k` in a row. -/
def each {κ : Type} (r : κ → Reader ε α) : List κ → Reader ε (List α)
  | [] => pure []
  | k :: ks => do
    let a ← r k
    let rest ← each r ks
    pure (a :: rest)

theorem bind_of_ok {r : Reader ε α} {k : α → Reader ε β} {c c' : Cursor} {a : α}
    (h : r c = (.ok a, c')) : (r >>= k) c = k a c' := by
  simp only [Bind.bind, h]

theorem bind_of_error {r : Reader ε α} {k : α → Reader ε β} {c c' : Cursor} {e : ε}
    (h : r c = (.error e, c')) : (r >>= k) c = (.error e, c') := by
  simp only [Bind.bind, h]

theorem bind_ok_iff {r : Reader ε α} {k : α → Reader ε β} {c c' : Cursor} {b : β} :
    (r >>= k) c = (.ok b, c') ↔ ∃ a c₁, r c = (.ok a, c₁) ∧ k a c₁ = (.ok b, c') := by
  show (match r c with
    | (.ok a, c₁) => k a c₁
    | (.error e, c₁) => (.error e, c₁)) = _ ↔ _
  obtain ⟨res, c₁⟩ := r c
  cases res with
  | ok a =>
    constructor
    · intro hk
      exact ⟨a, c₁, rfl, hk⟩
    · rintro ⟨a', c₁', heq, hk⟩
      obtain ⟨ha, rfl⟩ := Prod.mk.inj heq
      obtain rfl := Except.ok.inj ha
      exact hk
  | error e =>
    constructor
    · intro hk
      exact absurd (Prod.mk.inj hk).1 nofun
    · rintro ⟨a', c₁', heq, -⟩
      exact absurd (Prod.mk.inj heq).1 nofun

theorem bind_assoc {γ : Type} (r : Reader ε α) (k : α → Reader ε β) (k' : β → Reader ε γ) :
    r >>= k >>= k' = r >>= fun a => k a >>= k' := by
  funext c
  cases hrun : r c with
  | mk res c₁ => cases res <;> simp only [Bind.bind, hrun]

theorem pure_bind (a : α) (k : α → Reader ε β) : Pure.pure a >>= k = k a := rfl

theorem pure_ok_iff {a b : α} {c c' : Cursor} :
    (pure a : Reader ε α) c = (.ok b, c') ↔ b = a ∧ c' = c := by
  show (Except.ok a, c) = (Except.ok b, c') ↔ _
  constructor
  · intro h
    obtain ⟨ha, rfl⟩ := Prod.mk.inj h
    exact ⟨(Except.ok.inj ha).symm, rfl⟩
  · rintro ⟨rfl, rfl⟩
    rfl

theorem mapErr_ok_iff {ε' : Type} {f : ε → ε'} {r : Reader ε α} {a : α} {c c' : Cursor} :
    r.mapErr f c = (.ok a, c') ↔ r c = (.ok a, c') := by
  unfold mapErr
  obtain ⟨res, c₁⟩ := r c
  cases res with
  | ok a' => simp only [Except.mapError, Prod.mk.injEq, Except.ok.injEq]
  | error e =>
    refine iff_of_false ?_ ?_
    · intro h
      exact absurd (Prod.mk.inj h).1 nofun
    · intro h
      exact absurd (Prod.mk.inj h).1 nofun

end Reader

namespace Cursor

/-- What is left to read. -/
def rest (c : Cursor) : List UInt8 := c.input.drop c.pos

/-- The cursor `n` bytes further. -/
def advance (c : Cursor) (n : Nat) : Cursor := { c with pos := c.pos + n }

/-- Bound on the length of an input. -/
def limit : Nat := 2 ^ 64

/-- The position is inside the input, and the input is one a machine can hold. -/
structure Valid (c : Cursor) : Prop where
  pos_le : c.pos ≤ c.input.length
  length_lt : c.input.length < limit

theorem advance_advance (c : Cursor) (m n : Nat) : (c.advance m).advance n = c.advance (m + n) := by
  unfold advance
  rw [Nat.add_assoc]

theorem rest_advance (c : Cursor) (n : Nat) : (c.advance n).rest = c.rest.drop n := by
  unfold advance rest
  rw [List.drop_drop]

theorem length_rest (c : Cursor) : c.rest.length = c.input.length - c.pos := List.length_drop ..

theorem Valid.advance {c : Cursor} (hc : c.Valid) {enc : List UInt8} (h : enc <+: c.rest) :
    (c.advance enc.length).Valid := by
  have hle := h.length_le
  rw [length_rest] at hle
  refine ⟨?_, hc.length_lt⟩
  have := hc.pos_le
  show c.pos + enc.length ≤ c.input.length
  omega

theorem Valid.prefix_length_lt {c : Cursor} (hc : c.Valid) {enc : List UInt8} (h : enc <+: c.rest) :
    enc.length < limit := by
  have hle := h.length_le
  rw [length_rest] at hle
  have := hc.length_lt
  omega

theorem append_prefix_rest_iff {c : Cursor} {x y : List UInt8} :
    x ++ y <+: c.rest ↔ x <+: c.rest ∧ y <+: (c.advance x.length).rest := by
  rw [rest_advance]
  constructor
  · rintro ⟨t, ht⟩
    rw [List.append_assoc] at ht
    refine ⟨⟨_, ht⟩, ⟨t, ?_⟩⟩
    rw [← ht, List.drop_left]
  · rintro ⟨⟨t, ht⟩, ⟨u, hu⟩⟩
    rw [← ht, List.drop_left] at hu
    exact ⟨u, by rw [List.append_assoc, hu, ht]⟩

end Cursor

/-! ## Exact decoders -/

/-- `r` decodes the format `enc` of the values with `P`, and nothing else. -/
def Exact (r : Reader ε α) (P : α → Prop) (enc : α → List UInt8) : Prop :=
  ∀ c : Cursor, c.Valid → ∀ a c',
    r c = (.ok a, c') ↔ P a ∧ enc a <+: c.rest ∧ c' = c.advance (enc a).length

namespace Exact

theorem pure (a : α) : Exact (ε := ε) (Pure.pure a) (· = a) fun _ => [] := by
  intro c _ a' c'
  rw [Reader.pure_ok_iff]
  constructor
  · rintro ⟨rfl, rfl⟩
    exact ⟨rfl, List.nil_prefix, rfl⟩
  · rintro ⟨rfl, -, rfl⟩
    exact ⟨rfl, rfl⟩

theorem fail (e : ε) (enc : α → List UInt8) : Exact (Reader.fail e) (fun _ => False) enc := by
  intro c _ a c'
  constructor
  · intro h
    exact absurd (Prod.mk.inj h).1 nofun
  · rintro ⟨h, -⟩
    exact h.elim

/-- The format may be described differently on what is short enough to be encoded. -/
theorem congr {r : Reader ε α} {P Q : α → Prop} {enc enc' : α → List UInt8} (hr : Exact r P enc)
    (henc : ∀ a, P a ∨ Q a → enc a = enc' a)
    (hPQ : ∀ a, (enc' a).length < Cursor.limit → (P a ↔ Q a)) : Exact r Q enc' := by
  intro c hc a c'
  rw [hr c hc]
  constructor
  · rintro ⟨hP, hpre, rfl⟩
    rw [henc a (Or.inl hP)] at hpre ⊢
    exact ⟨(hPQ a (hc.prefix_length_lt hpre)).mp hP, hpre, rfl⟩
  · rintro ⟨hQ, hpre, rfl⟩
    have hP := (hPQ a (hc.prefix_length_lt hpre)).mpr hQ
    rw [henc a (Or.inl hP)]
    exact ⟨hP, hpre, rfl⟩

theorem ensure (p : Prop) [Decidable p] (e : ε) :
    Exact (Reader.ensure p e) (fun _ => p) fun _ => [] := by
  unfold Reader.ensure
  by_cases hp : p
  · rw [if_pos hp]
    exact (pure ()).congr (fun _ _ => rfl) fun _ _ => by simp [hp]
  · rw [if_neg hp]
    exact (fail e _).congr (fun _ _ => rfl) fun _ _ => by simp [hp]

/-- What a reading accepts does not depend on how it reports errors. -/
theorem mapErr {ε' : Type} {r : Reader ε α} {P : α → Prop} {enc : α → List UInt8}
    (f : ε → ε') (hr : Exact r P enc) : Exact (r.mapErr f) P enc := by
  intro c hc a c'
  rw [Reader.mapErr_ok_iff, hr c hc]

/-- **Exact decoders compose.** `f` recovers the part read first from the whole value. -/
theorem bind {r : Reader ε α} {k : α → Reader ε β} {P : α → Prop} {Q : β → Prop}
    {enc : α → List UInt8} {g : β → List UInt8} (f : β → α) (hr : Exact r P enc)
    (hk : ∀ a, P a → Exact (k a) (fun b => Q b ∧ f b = a) g) :
    Exact (r >>= k) (fun b => Q b ∧ P (f b)) fun b => enc (f b) ++ g b := by
  intro c hc b c'
  rw [Reader.bind_ok_iff, Cursor.append_prefix_rest_iff, List.length_append,
    ← Cursor.advance_advance]
  constructor
  · rintro ⟨a, c₁, h₁, h₂⟩
    obtain ⟨hP, hpre, rfl⟩ := (hr c hc a c₁).mp h₁
    obtain ⟨⟨hQ, rfl⟩, hpre', rfl⟩ := (hk a hP _ (hc.advance hpre) b c').mp h₂
    exact ⟨⟨hQ, hP⟩, ⟨hpre, hpre'⟩, rfl⟩
  · rintro ⟨⟨hQ, hP⟩, ⟨hpre, hpre'⟩, rfl⟩
    exact ⟨f b, _, (hr c hc _ _).mpr ⟨hP, hpre, rfl⟩,
      (hk _ hP _ (hc.advance hpre) b _).mpr ⟨⟨hQ, rfl⟩, hpre', rfl⟩⟩

/-- Reading one field of a record: `f` is the field. -/
theorem field {r : Reader ε α} {k : α → Reader ε β} {Q : β → Prop} {enc : α → List UInt8}
    {g : β → List UInt8} (f : β → α) (hr : Exact r (fun _ => True) enc)
    (hk : ∀ a, Exact (k a) (fun b => Q b ∧ f b = a) g) :
    Exact (r >>= k) Q fun b => enc (f b) ++ g b :=
  (hr.bind f fun a _ => hk a).congr (fun _ _ => rfl) fun _ _ => by rw [and_true]

/-- The same for a field that is not any value: the records are those with one of its values. -/
theorem fieldOf {r : Reader ε α} {k : α → Reader ε β} {P : α → Prop} {Q : β → Prop}
    {enc : α → List UInt8} {g : β → List UInt8} (f : β → α) (hr : Exact r P enc)
    (hQ : ∀ b, Q b → P (f b)) (hk : ∀ a, P a → Exact (k a) (fun b => Q b ∧ f b = a) g) :
    Exact (r >>= k) Q fun b => enc (f b) ++ g b :=
  (hr.bind f hk).congr (fun _ _ => rfl) fun b _ => and_iff_left_of_imp (hQ b)

/-- Wrapping what was read. -/
theorem map {r : Reader ε α} {P : α → Prop} {enc : α → List UInt8} {g : β → List UInt8}
    (f : α → β) (hr : Exact r P enc) (hg : ∀ a, P a → g (f a) = enc a) :
    Exact (do let a ← r; Pure.pure (f a)) (fun b => ∃ a, P a ∧ b = f a) g := by
  intro c hc b c'
  rw [Reader.bind_ok_iff]
  constructor
  · rintro ⟨a, c₁, h₁, h₂⟩
    obtain ⟨hP, hpre, rfl⟩ := (hr c hc a c₁).mp h₁
    obtain ⟨rfl, rfl⟩ := Reader.pure_ok_iff.mp h₂
    rw [hg a hP]
    exact ⟨⟨a, hP, rfl⟩, hpre, rfl⟩
  · rintro ⟨⟨a, hP, rfl⟩, hpre, rfl⟩
    rw [hg a hP] at hpre ⊢
    exact ⟨a, _, (hr c hc a _).mpr ⟨hP, hpre, rfl⟩, rfl⟩

/-- A check and then a value. -/
theorem ensure_pure (p : Prop) [Decidable p] (e : ε) (a : α) :
    Exact (do Reader.ensure p e; Pure.pure a) (fun b => b = a ∧ p) fun _ => [] :=
  (ensure p e).bind (fun _ => ()) fun _ _ =>
    (pure a).congr (fun _ _ => rfl) fun _ _ => by simp

/-- A reading that must give `a`, and then the rest. -/
theorem expect [DecidableEq α] {r : Reader ε α} {k : Reader ε β} {P : α → Prop} {Q : β → Prop}
    {enc : α → List UInt8} {g : β → List UInt8} {a : α} (hr : Exact r P enc) (ha : P a) (e : ε)
    (hk : Exact k Q g) :
    Exact (do let found ← r; Reader.ensure (found = a) e; k) Q fun b => enc a ++ g b := by
  refine (hr.bind (fun _ : β => a) (Q := Q) (g := g) fun found _ => ?_).congr
    (fun _ _ => rfl) fun _ _ => and_iff_left ha
  refine ((Exact.ensure (found = a) e).bind (fun _ : β => ()) (Q := Q) (g := g)
    fun _ _ => hk.congr (fun _ _ => rfl) fun _ _ => by simp).congr (fun _ _ => rfl)
      fun _ _ => ?_
  rw [eq_comm]

/-- One element, and then the others. -/
theorem cons {r : Reader ε α} {rs : Reader ε (List α)} {P : α → Prop} {Ps : List α → Prop}
    {enc : α → List UInt8} (hr : Exact r P enc) (hrs : Exact rs Ps (·.flatMap enc)) :
    Exact (do let a ← r; let rest ← rs; Pure.pure (a :: rest))
      (fun as => ∃ a rest, P a ∧ Ps rest ∧ as = a :: rest) (·.flatMap enc) := by
  intro c hc as c'
  rw [Reader.bind_ok_iff]
  beta_reduce
  constructor
  · rintro ⟨a, c₁, h₁, h₂⟩
    obtain ⟨hP, hpre, rfl⟩ := (hr c hc a c₁).mp h₁
    obtain ⟨rest, c₂, h₂, h₃⟩ := Reader.bind_ok_iff.mp h₂
    obtain ⟨hPs, hpre', rfl⟩ := (hrs _ (hc.advance hpre) rest c₂).mp h₂
    obtain ⟨rfl, rfl⟩ := Reader.pure_ok_iff.mp h₃
    rw [List.flatMap_cons, Cursor.append_prefix_rest_iff, List.length_append,
      ← Cursor.advance_advance]
    exact ⟨⟨a, rest, hP, hPs, rfl⟩, ⟨hpre, hpre'⟩, rfl⟩
  · rintro ⟨⟨a, rest, hP, hPs, rfl⟩, hpre, rfl⟩
    rw [List.flatMap_cons, Cursor.append_prefix_rest_iff] at hpre
    rw [List.flatMap_cons, List.length_append, ← Cursor.advance_advance]
    refine ⟨a, _, (hr c hc a _).mpr ⟨hP, hpre.1, rfl⟩, Reader.bind_ok_iff.mpr ⟨rest, _,
      (hrs _ (hc.advance hpre.1) rest _).mpr ⟨hPs, hpre.2, rfl⟩, ?_⟩⟩
    exact Reader.pure_ok_iff.mpr ⟨rfl, rfl⟩

theorem nil (enc : α → List UInt8) :
    Exact (ε := ε) (Pure.pure []) (· = []) (·.flatMap enc) := by
  refine (pure []).congr ?_ fun _ _ => Iff.rfl
  rintro as (rfl | rfl) <;> rfl

/-- **A counted loop** decodes the lists of that length. -/
theorem replicate {r : Reader ε α} {P : α → Prop} {enc : α → List UInt8} (hr : Exact r P enc) :
    ∀ n, Exact (r.replicate n) (fun as => as.length = n ∧ ∀ a ∈ as, P a) (·.flatMap enc)
  | 0 => by
    refine (nil enc).congr (fun _ _ => rfl) fun as _ => ?_
    constructor
    · rintro rfl
      exact ⟨rfl, nofun⟩
    · rintro ⟨h, -⟩
      exact List.length_eq_zero_iff.mp h
  | n + 1 => by
    refine (hr.cons (replicate hr n)).congr (fun _ _ => rfl) fun as _ => ?_
    constructor
    · rintro ⟨a, rest, hP, ⟨hlen, hPs⟩, rfl⟩
      exact ⟨by rw [List.length_cons, hlen], List.forall_mem_cons.mpr ⟨hP, hPs⟩⟩
    · rintro ⟨hlen, hPs⟩
      obtain ⟨a, rest, rfl⟩ := List.exists_cons_of_length_eq_add_one hlen
      obtain ⟨hP, hPs⟩ := List.forall_mem_cons.mp hPs
      exact ⟨a, rest, hP, ⟨Nat.succ.inj hlen, hPs⟩, rfl⟩

/-- **A sequence of readings** decodes the lists with a value for each. -/
theorem each {κ : Type} {r : κ → Reader ε α} {P : κ → α → Prop} {enc : α → List UInt8}
    (hr : ∀ k, Exact (r k) (P k) enc) :
    ∀ ks, Exact (Reader.each r ks) (List.Forall₂ P ks) (·.flatMap enc)
  | [] => (nil enc).congr (fun _ _ => rfl) fun _ _ => List.forall₂_nil_left_iff.symm
  | k :: ks =>
    ((hr k).cons (each hr ks)).congr (fun _ _ => rfl) fun _ _ => List.forall₂_cons_left_iff.symm

/-- **Run on a whole input**, an exact decoder that must consume all of it inverts the
encoding. -/
theorem run_iff {r : Reader ε α} {P : α → Prop} {enc : α → List UInt8} (hr : Exact r P enc)
    {input : List UInt8} (hlen : input.length < Cursor.limit) {a : α} :
    (∃ c', r ⟨input, 0⟩ = (.ok a, c') ∧ c'.pos = c'.input.length) ↔ P a ∧ input = enc a := by
  have hc : Cursor.Valid ⟨input, 0⟩ := ⟨Nat.zero_le _, hlen⟩
  constructor
  · rintro ⟨c', h, hend⟩
    obtain ⟨hP, hpre, rfl⟩ := (hr _ hc a c').mp h
    have hlen : (enc a).length = input.length := (Nat.zero_add _).symm.trans hend
    exact ⟨hP, (hpre.eq_of_length hlen).symm⟩
  · rintro ⟨hP, rfl⟩
    exact ⟨_, (hr _ hc a _).mpr ⟨hP, List.prefix_rfl, rfl⟩, Nat.zero_add _⟩

/-- **No encoding is a proper beginning of another.** -/
theorem eq_of_isPrefix {r : Reader ε α} {P : α → Prop} {enc : α → List UInt8} (hr : Exact r P enc)
    {a b : α} (ha : P a) (hb : P b) (hpre : enc a <+: enc b)
    (hlen : (enc b).length < Cursor.limit) : enc a = enc b := by
  have hc : Cursor.Valid ⟨enc b, 0⟩ := ⟨Nat.zero_le _, hlen⟩
  have hfirst := (hr _ hc a _).mpr ⟨ha, hpre, rfl⟩
  have hsecond := (hr _ hc b _).mpr ⟨hb, List.prefix_rfl, rfl⟩
  rw [Except.ok.inj (Prod.mk.inj (hfirst.symm.trans hsecond)).1]

/-- **A check that the input has ended** makes an exact decoder the inverse of the encoding. -/
theorem run_end_iff {r : Reader ε α} {P : α → Prop} {enc : α → List UInt8} (hr : Exact r P enc)
    {finish : Reader ε Unit}
    (hfinish : ∀ c c', finish c = (.ok (), c') ↔ c.pos = c.input.length ∧ c' = c)
    {input : List UInt8} (hlen : input.length < Cursor.limit) {a : α} :
    ((do let a ← r; finish; Pure.pure a : Reader ε α) ⟨input, 0⟩).1 = .ok a ↔
      P a ∧ input = enc a := by
  rw [← hr.run_iff hlen]
  constructor
  · intro h
    have hrun : (do let a ← r; finish; Pure.pure a : Reader ε α) ⟨input, 0⟩ = (.ok a, _) :=
      Prod.ext h rfl
    obtain ⟨a', c₁, h₁, h₂⟩ := Reader.bind_ok_iff.mp hrun
    obtain ⟨_, c₂, hend, h₃⟩ := Reader.bind_ok_iff.mp h₂
    obtain ⟨rfl, -⟩ := Reader.pure_ok_iff.mp h₃
    exact ⟨c₁, h₁, ((hfinish c₁ c₂).mp hend).1⟩
  · rintro ⟨c', h, hend⟩
    have hrun : (do let a ← r; finish; Pure.pure a : Reader ε α) ⟨input, 0⟩ = (.ok a, c') :=
      Reader.bind_ok_iff.mpr ⟨a, c', h,
        Reader.bind_ok_iff.mpr ⟨(), c', (hfinish c' c').mpr ⟨hend, rfl⟩, rfl⟩⟩
    rw [hrun]

end Exact

end Keepstone.Lib
