/-
Bytes on the wire: 32-bit signed integers as `Int` with explicit wrapping, their big-endian
encoding, and checked reads from a block of bytes at signed indices. A read outside the block is a
fault, as is an exception that leaves the modelled function.
-/
import Mathlib.Algebra.Ring.Int.Defs
import Mathlib.Algebra.Ring.Nat
import Mathlib.Data.List.Basic
import Mathlib.Data.List.TakeWhile

namespace Wire

abbrev Bytes := List UInt8

/-- How a computation goes wrong. -/
inductive Fault
  /-- An access outside the object it names. -/
  | memory
  /-- An exception nobody catches. -/
  | thrown
  deriving DecidableEq, Repr

@[simp] theorem ok_bind {α β : Type} (a : α) (f : α → Except Fault β) : (Except.ok a >>= f) = f a := rfl

@[simp] theorem error_bind {α β : Type} (e : Fault) (f : α → Except Fault β) :
    (Except.error e >>= f) = .error e := rfl

theorem bind_eq_ok {α β : Type} {x : Except Fault α} {f : α → Except Fault β} {b : β} :
    (x >>= f) = .ok b ↔ ∃ a, x = .ok a ∧ f a = .ok b := by
  cases x with
  | error e => simp
  | ok a => simp

/-! ## 32-bit integers -/

/-- Two's complement wrapping to 32 bits. -/
def wrap32 (x : Int) : Int := x.bmod (2 ^ 32)

def InInt32 (x : Int) : Prop := -2 ^ 31 ≤ x ∧ x < 2 ^ 31

instance (x : Int) : Decidable (InInt32 x) := inferInstanceAs (Decidable (_ ∧ _))

theorem wrap32_inInt32 (x : Int) : InInt32 (wrap32 x) := by
  unfold InInt32 wrap32
  have h1 := Int.le_bmod (x := x) (m := 2 ^ 32) (by decide)
  have h2 := Int.bmod_lt (x := x) (m := 2 ^ 32) (by decide)
  omega

theorem wrap32_of_inInt32 {x : Int} (h : InInt32 x) : wrap32 x = x := by
  obtain ⟨h1, h2⟩ := h
  unfold wrap32
  exact Int.bmod_eq_of_le (by omega) (by omega)

theorem wrap32_overflow {x : Int} (h0 : 2 ^ 31 ≤ x) (h1 : x < 2 ^ 32) : wrap32 x = x - 2 ^ 32 := by
  unfold wrap32
  rw [Int.bmod_def]
  omega

/-! ## Big-endian encoding -/

/-- The four bytes of `x`, most significant first. -/
def be32 (x : Int) : Bytes :=
  let n := (x % 2 ^ 32).toNat
  [UInt8.ofNat (n / 2 ^ 24), UInt8.ofNat (n / 2 ^ 16), UInt8.ofNat (n / 2 ^ 8), UInt8.ofNat n]

/-- The signed integer with the given bytes, most significant first. -/
def ofBe32 (bs : Bytes) : Int :=
  wrap32 (bs.foldl (fun (n : Nat) b => 256 * n + b.toNat) 0 : Nat)

@[simp] theorem length_be32 (x : Int) : (be32 x).length = 4 := rfl

theorem ofBe32_be32 {x : Int} (h : InInt32 x) : ofBe32 (be32 x) = x := by
  obtain ⟨h1, h2⟩ := h
  obtain ⟨n, hn⟩ : ∃ n : Nat, x % 2 ^ 32 = n := ⟨(x % 2 ^ 32).toNat, by omega⟩
  have hb : (be32 x).foldl (fun (n : Nat) b => 256 * n + b.toNat) 0 = n := by
    simp only [be32, hn, Int.toNat_natCast, List.foldl_cons, List.foldl_nil, UInt8.toNat_ofNat']
    omega
  unfold ofBe32
  rw [hb, ← hn]
  show (x % ((2 ^ 32 : Nat) : Int)).bmod (2 ^ 32) = x
  rw [Int.emod_bmod]
  exact wrap32_of_inInt32 ⟨h1, h2⟩

theorem be32_inj {x y : Int} (hx : InInt32 x) (hy : InInt32 y) (h : be32 x = be32 y) : x = y := by
  rw [← ofBe32_be32 hx, h, ofBe32_be32 hy]

theorem ofBe32_inInt32 (bs : Bytes) : InInt32 (ofBe32 bs) := wrap32_inInt32 _

/-! ## Checked reads -/

/-- The byte at index `i`. -/
def byteAt (t : Bytes) (i : Int) : Except Fault UInt8 :=
  if 0 ≤ i then
    match t[i.toNat]? with
    | some c => .ok c
    | none => .error .memory
  else .error .memory

/-- The `n` bytes from index `i` on. -/
def bytesAt (t : Bytes) (i n : Int) : Except Fault Bytes :=
  if 0 ≤ i ∧ 0 ≤ n ∧ i + n ≤ t.length then .ok ((t.drop i.toNat).take n.toNat)
  else .error .memory

/-- The big-endian integer at index `i`. -/
def int32At (t : Bytes) (i : Int) : Except Fault Int :=
  (bytesAt t i 4).map ofBe32

theorem byteAt_eq_ok {t : Bytes} {i : Int} {c : UInt8} :
    byteAt t i = .ok c ↔ 0 ≤ i ∧ t[i.toNat]? = some c := by
  unfold byteAt
  split
  · rename_i h
    cases ht : t[i.toNat]? <;> simp [h]
  · rename_i h
    simp [h]

theorem byteAt_lt {t : Bytes} {i : Int} {c : UInt8} (h : byteAt t i = .ok c) :
    0 ≤ i ∧ i < t.length := by
  obtain ⟨h0, h1⟩ := byteAt_eq_ok.1 h
  have := (List.getElem?_eq_some_iff.1 h1).1
  exact ⟨h0, by omega⟩

theorem bytesAt_eq_ok {t : Bytes} {i n : Int} {bs : Bytes} :
    bytesAt t i n = .ok bs ↔
      (0 ≤ i ∧ 0 ≤ n ∧ i + n ≤ t.length) ∧ (t.drop i.toNat).take n.toNat = bs := by
  unfold bytesAt
  split
  · rename_i h
    simp only [Except.ok.injEq, h, and_self, true_and]
  · rename_i h
    simp only [reduceCtorEq, h, false_and]

theorem bytesAt_isOk {t : Bytes} {i n : Int} (h0 : 0 ≤ i) (hn : 0 ≤ n) (h1 : i + n ≤ t.length) :
    ∃ bs, bytesAt t i n = .ok bs :=
  ⟨_, bytesAt_eq_ok.2 ⟨⟨h0, hn, h1⟩, rfl⟩⟩

theorem int32At_eq_ok {t : Bytes} {i x : Int} :
    int32At t i = .ok x ↔ ∃ bs, bytesAt t i 4 = .ok bs ∧ ofBe32 bs = x := by
  unfold int32At
  cases bytesAt t i 4 <;> simp [Except.map]

theorem int32At_isOk {t : Bytes} {i : Int} (h0 : 0 ≤ i) (h1 : i + 4 ≤ t.length) :
    ∃ x, int32At t i = .ok x := by
  obtain ⟨bs, hbs⟩ := bytesAt_isOk h0 (by decide) h1
  exact ⟨_, int32At_eq_ok.2 ⟨bs, hbs, rfl⟩⟩

theorem int32At_bounds {t : Bytes} {i x : Int} (h : int32At t i = .ok x) :
    0 ≤ i ∧ i + 4 ≤ t.length ∧ InInt32 x := by
  obtain ⟨bs, hbs, rfl⟩ := int32At_eq_ok.1 h
  obtain ⟨⟨h0, -, h1⟩, -⟩ := bytesAt_eq_ok.1 hbs
  exact ⟨h0, h1, ofBe32_inInt32 bs⟩

theorem byteAt_isOk {t : Bytes} {i : Int} (h0 : 0 ≤ i) (h1 : i < t.length) : ∃ c, byteAt t i = .ok c :=
  ⟨_, byteAt_eq_ok.2 ⟨h0, List.getElem?_eq_getElem (by omega)⟩⟩

/-! ## A block inside another -/

section

variable {p q s : Bytes} {i n : Int}

theorem byteAt_inside (h0 : 0 ≤ i) (h1 : i < q.length) : byteAt (p ++ (q ++ s)) (p.length + i) = byteAt q i := by
  obtain ⟨c, hc⟩ := byteAt_isOk h0 h1
  obtain ⟨-, hget⟩ := byteAt_eq_ok.1 hc
  rw [hc, byteAt_eq_ok]
  refine ⟨by omega, ?_⟩
  rw [show (p.length + i).toNat = p.length + i.toNat by omega, List.getElem?_append_right (by omega),
    Nat.add_sub_cancel_left, List.getElem?_append_left (by omega)]
  exact hget

theorem bytesAt_inside (h0 : 0 ≤ i) (hn : 0 ≤ n) (h1 : i + n ≤ q.length) :
    bytesAt (p ++ (q ++ s)) (p.length + i) n = bytesAt q i n := by
  obtain ⟨bs, hbs⟩ := bytesAt_isOk h0 hn h1
  obtain ⟨-, htake⟩ := bytesAt_eq_ok.1 hbs
  rw [hbs, bytesAt_eq_ok]
  refine ⟨⟨by omega, hn, by simp only [List.length_append]; omega⟩, ?_⟩
  rw [show (p.length + i).toNat = p.length + i.toNat by omega, ← List.drop_drop, List.drop_left,
    List.drop_append_of_le_length (by omega), List.take_append_of_le_length (by rw [List.length_drop]; omega)]
  exact htake

theorem int32At_inside (h0 : 0 ≤ i) (h1 : i + 4 ≤ q.length) :
    int32At (p ++ (q ++ s)) (p.length + i) = int32At q i := by
  unfold int32At
  rw [bytesAt_inside h0 (by decide) h1]

end

/-! ## Undefined accesses -/

/-- No access outside an object. -/
def Defined {α : Type} (x : Except Fault α) : Prop := x ≠ .error .memory

theorem defined_ok {α : Type} {a : α} : Defined (.ok a) := nofun

/-- A computation that throws nothing is followed by the rest when it gives a result, and else undefined. -/
theorem defined_bind {α β : Type} {x : Except Fault α} {k : α → Except Fault β} (hx : x ≠ .error .thrown) :
    Defined (x >>= k) ↔ ∃ a, x = .ok a ∧ Defined (k a) := by
  match x with
  | .error .memory => exact iff_of_false (fun h => h rfl) nofun
  | .error .thrown => exact absurd rfl hx
  | .ok a => simp only [ok_bind, Except.ok.injEq, exists_eq_left']

theorem defined_map {α β : Type} {x : Except Fault α} {f : α → β} : Defined (x.map f) ↔ Defined x := by
  unfold Defined Except.map
  cases x <;> simp

theorem bytesAt_ne_thrown {t : Bytes} {i n : Int} : bytesAt t i n ≠ .error .thrown := by
  unfold bytesAt
  split <;> nofun

theorem int32At_ne_thrown {t : Bytes} {i : Int} : int32At t i ≠ .error .thrown := by
  unfold int32At bytesAt
  split <;> nofun

/-! ## Two runs

A computation that is never undefined on the block gives the same on the block inside another. -/

section

variable {α β γ δ : Type} {R : α → β → Prop} {S : γ → δ → Prop}

/-- Where `y` is defined, `x` gives the same, up to `R` on the results. -/
def Extends (R : α → β → Prop) (x : Except Fault α) : Except Fault β → Prop
  | .error .memory => True
  | .error .thrown => x = .error .thrown
  | .ok b => ∃ a, x = .ok a ∧ R a b

theorem Extends.bind {x : Except Fault α} {y : Except Fault β} {k : α → Except Fault γ} {l : β → Except Fault δ}
    (h : Extends R x y) (hk : ∀ a b, R a b → Extends S (k a) (l b)) : Extends S (x >>= k) (y >>= l) := by
  match y with
  | .error .memory => trivial
  | .error .thrown =>
    have hx : x = .error .thrown := h
    rw [hx]
    rfl
  | .ok b =>
    obtain ⟨a, rfl, hab⟩ := h
    exact hk a b hab

theorem Extends.of_eq {x y : Except Fault α} (h : y ≠ .error .memory → x = y) : Extends Eq x y := by
  match y with
  | .error .memory => trivial
  | .error .thrown => exact h nofun
  | .ok b => exact ⟨b, h nofun, rfl⟩

theorem Extends.ite {c d : Prop} [Decidable c] [Decidable d] {x x' : Except Fault α} {y y' : Except Fault β}
    (hcd : c ↔ d) (h : d → Extends R x y) (h' : ¬ d → Extends R x' y') :
    Extends R (if c then x else x') (if d then y else y') := by
  by_cases hd : d
  · rw [if_pos hd, if_pos (hcd.2 hd)]
    exact h hd
  · rw [if_neg hd, if_neg (mt hcd.1 hd)]
    exact h' hd

theorem Extends.ok {a : α} {b : β} (h : R a b) : Extends R (.ok a) (.ok b) := ⟨a, rfl, h⟩

variable {p q s : Bytes} {i j n : Int}

theorem bytesAt_extends (hj : j = p.length + i) : Extends Eq (bytesAt (p ++ (q ++ s)) j n) (bytesAt q i n) := by
  refine .of_eq fun hdef => ?_
  subst hj
  by_cases h : 0 ≤ i ∧ 0 ≤ n ∧ i + n ≤ q.length
  · exact bytesAt_inside h.1 h.2.1 h.2.2
  · exact absurd (if_neg h) hdef

theorem int32At_extends (hj : j = p.length + i) : Extends Eq (int32At (p ++ (q ++ s)) j) (int32At q i) := by
  unfold int32At
  have h := bytesAt_extends (q := q) (s := s) (n := 4) hj
  match hy : bytesAt q i 4 with
  | .error .memory => trivial
  | .error .thrown =>
    rw [hy] at h
    exact congrArg (·.map ofBe32) h
  | .ok bs =>
    rw [hy] at h
    obtain ⟨a, hx, rfl⟩ := h
    rw [hx]
    exact ⟨_, rfl, rfl⟩

end

/-! ## Known contents -/

/-- The bytes `bs` stand at index `i`. -/
def Has (t : Bytes) (i : Int) (bs : Bytes) : Prop := ∃ a c, t = a ++ (bs ++ c) ∧ i = a.length

theorem Has.bounds {t bs : Bytes} {i : Int} (h : Has t i bs) : 0 ≤ i ∧ i + bs.length ≤ t.length := by
  obtain ⟨a, c, rfl, rfl⟩ := h
  simp only [List.length_append]
  omega

theorem has_append {t b cs : Bytes} {i : Int} :
    Has t i (b ++ cs) ↔ Has t i b ∧ Has t (i + b.length) cs := by
  constructor
  · rintro ⟨a, c, rfl, rfl⟩
    refine ⟨⟨a, cs ++ c, by simp, rfl⟩, ⟨a ++ b, c, by simp, by simp⟩⟩
  · rintro ⟨⟨a, c, rfl, rfl⟩, ⟨a', c', h, hl⟩⟩
    rw [← List.append_assoc] at h
    obtain ⟨rfl, rfl⟩ := List.append_inj h (by simp only [List.length_append]; omega)
    exact ⟨a, c', by simp, rfl⟩

theorem has_cons {t cs : Bytes} {i : Int} {b : UInt8} :
    Has t i ([b] ++ cs) ↔ Has t i [b] ∧ Has t (i + 1) cs :=
  has_append

theorem has_be32 {t cs : Bytes} {i x : Int} :
    Has t i (be32 x ++ cs) ↔ Has t i (be32 x) ∧ Has t (i + 4) cs :=
  has_append

theorem Has.bytesAt {t bs : Bytes} {i n : Int} (h : Has t i bs) (hn : n = bs.length) :
    bytesAt t i n = .ok bs := by
  have hb := h.bounds
  obtain ⟨a, c, rfl, rfl⟩ := h
  exact bytesAt_eq_ok.2 ⟨by omega, by simp [hn]⟩

theorem Has.byteAt {t : Bytes} {i : Int} {b : UInt8} (h : Has t i [b]) : byteAt t i = .ok b := by
  obtain ⟨a, c, rfl, rfl⟩ := h
  exact byteAt_eq_ok.2 ⟨by omega, by simp⟩

theorem Has.int32At {t : Bytes} {i x : Int} (h : Has t i (be32 x)) (hx : InInt32 x) :
    int32At t i = .ok x :=
  int32At_eq_ok.2 ⟨be32 x, h.bytesAt rfl, ofBe32_be32 hx⟩

/-! ## C strings -/

/-- What `std::string(const char *)` reads from an array: the bytes before the first NUL. -/
def cString (bs : Bytes) : Bytes := bs.takeWhile (· ≠ 0)

theorem not_mem_cString (bs : Bytes) : (0 : UInt8) ∉ cString bs := by
  intro h
  simpa using List.mem_takeWhile_imp h

/-- The bytes before a NUL that is there. -/
theorem length_cString_lt {bs : Bytes} (h : (0 : UInt8) ∈ bs) : (cString bs).length < bs.length := by
  have hsub : (cString bs).Sublist bs := List.takeWhile_sublist _
  refine lt_of_le_of_ne hsub.length_le fun heq => not_mem_cString bs ?_
  rw [hsub.eq_of_length heq]
  exact h

theorem cString_eq {bs : Bytes} (h : (0 : UInt8) ∉ bs) : cString bs = bs := by
  unfold cString
  rw [List.takeWhile_eq_self_iff]
  intro b hb
  simp only [ne_eq, decide_not, Bool.not_eq_eq_eq_not, Bool.not_true, decide_eq_false_iff_not]
  exact fun e => h (e ▸ hb)

end Wire
