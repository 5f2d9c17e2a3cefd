import FastParse.Base
import FastParse.Framework.Run
import FastParse.Framework.SlotTable

namespace FastParse

open Framework

/-- Elements of `bigtable`, of `LOCRIB`, of the journal and of each `adj_rib_in`. -/
def big : Nat := 1000000
def tooBig : Nat := big + 1
def ribSize : Nat := 2 <<< 25

/-- The 25-bit word of a prefix: a sentinel bit in front of its top `l` address bits. -/
def encode (l a : Nat) : Exec Nat := do
  assert (l < 25)
  return ((0x100000000 ||| a) >>> (32 - l)) % 2 ^ 32

/-- The two arrays and the cursor. -/
structure Bigtable where
  rib : Nat → Nat
  bigtable : Nat → Nat
  bigtableIndex : Nat

/-- What `init_bigtable` and `reinit_bigtable` leave. -/
def Bigtable.init : Bigtable := ⟨fun _ => 0, fun _ => 0, 0⟩

def lookupRib (t : Bigtable) (l address : Nat) : Exec (Nat × Bigtable) := do
  let index ← encode l address
  assert (index < ribSize)
  let btindex := t.rib index
  if btindex = 0 then
    let btindex := t.bigtableIndex
    return (btindex, ⟨Function.update t.rib index btindex,
      Function.update t.bigtable btindex index, btindex + 1⟩)
  else return (btindex, t)

def lengthOf (la : Nat) : Nat := la >>> 32
def addressOf (la : Nat) : Nat := la &&& 0xffffffff

theorem prefix_halves {l a : Nat} (ha : a < 2 ^ 32) :
    lengthOf (l <<< 32 ||| a) = l ∧ addressOf (l <<< 32 ||| a) = a := by
  rw [← Nat.shiftLeft_add_eq_or_of_lt ha, lengthOf, addressOf,
    show 0xffffffff = 2 ^ 32 - 1 from rfl, Nat.and_two_pow_sub_one_eq_mod,
    Nat.shiftRight_eq_div_pow, Nat.shiftLeft_eq]
  constructor <;> omega

/-- The length is converted to `uint8_t`. -/
def encode64 (la : Nat) : Exec Nat := encode (lengthOf la % 2 ^ 8) (addressOf la)

/-- The guard makes the conversion of the length to `uint8_t` exact. -/
def lookupRib64 (t : Bigtable) (la : Nat) : Exec (Nat × Bigtable) :=
  if 25 > lengthOf la then lookupRib t (lengthOf la) (addressOf la)
  else return (tooBig, t)

def prefixWord (la : Nat) : Nat := 2 ^ lengthOf la + addressOf la >>> (32 - lengthOf la)

theorem addressOf_lt (la : Nat) : addressOf la < 2 ^ 32 :=
  Nat.lt_of_le_of_lt Nat.and_le_right (by decide)

/-- The address space, as so many prefixes of length `l`. -/
theorem two_pow_split {l : Nat} (h : l ≤ 32) : 2 ^ 32 = 2 ^ l * 2 ^ (32 - l) := by
  rw [Nat.mul_comm, Nat.pow_sub_mul_pow 2 h]

theorem address_top_lt (la : Nat) (h : lengthOf la ≤ 24) :
    addressOf la >>> (32 - lengthOf la) < 2 ^ lengthOf la := by
  have ha := addressOf_lt la
  rw [Nat.shiftRight_eq_div_pow]
  rw [two_pow_split (l := lengthOf la) (by omega)] at ha
  exact Nat.div_lt_of_lt_mul (by rwa [Nat.mul_comm] at ha)

/-- The sentinel sits just above the address bits that are kept. -/
theorem encode_eq (la : Nat) (h : lengthOf la ≤ 24) :
    encode (lengthOf la) (addressOf la) = .ok (prefixWord la) := by
  have ha := addressOf_lt la
  have top := address_top_lt la h
  have hl : 2 ^ lengthOf la ≤ 2 ^ 24 := Nat.pow_le_pow_right (by decide) h
  have hor : 0x100000000 ||| addressOf la = 2 ^ 32 + addressOf la := by
    have e := Nat.two_pow_add_eq_or_of_lt ha 1
    simpa using e.symm
  have hsplit := two_pow_split (l := lengthOf la) (by omega)
  have hshift : (0x100000000 ||| addressOf la) >>> (32 - lengthOf la) = prefixWord la := by
    rw [hor, Nat.shiftRight_eq_div_pow, hsplit, Nat.add_comm,
      Nat.add_mul_div_right _ _ (Nat.two_pow_pos _), prefixWord, Nat.shiftRight_eq_div_pow,
      Nat.add_comm]
  have hlt : prefixWord la < 2 ^ 32 := by
    rw [prefixWord]
    omega
  have hlength : lengthOf la < 25 := by omega
  rw [encode, assert, if_pos hlength]
  change Except.ok (((0x100000000 ||| addressOf la) >>> (32 - lengthOf la)) % 2 ^ 32) = _
  rw [hshift, Nat.mod_eq_of_lt hlt]

theorem prefixWord_lt (la : Nat) (h : lengthOf la ≤ 24) : prefixWord la < 2 ^ 25 := by
  have top := address_top_lt la h
  have hl : 2 ^ lengthOf la ≤ 2 ^ 24 := Nat.pow_le_pow_right (by decide) h
  rw [prefixWord]
  omega

/-- Same length and same address up to the bits beyond that length. -/
def SamePrefix (la la' : Nat) : Prop :=
  lengthOf la = lengthOf la' ∧
    addressOf la >>> (32 - lengthOf la) = addressOf la' >>> (32 - lengthOf la')

instance (la la' : Nat) : Decidable (SamePrefix la la') := inferInstanceAs (Decidable (_ ∧ _))

/-- The sentinel makes the words of different prefixes differ. -/
theorem prefixWord_inj {la la' : Nat} (h : lengthOf la ≤ 24) (h' : lengthOf la' ≤ 24) :
    prefixWord la = prefixWord la' ↔ SamePrefix la la' := by
  have top := address_top_lt la h
  have top' := address_top_lt la' h'
  constructor
  · intro e
    have hlen : lengthOf la = lengthOf la' := by
      simp only [prefixWord] at e
      generalize addressOf la >>> (32 - lengthOf la) = x at top e
      generalize addressOf la' >>> (32 - lengthOf la') = x' at top' e
      rcases Nat.lt_trichotomy (lengthOf la) (lengthOf la') with hlt | heq | hgt
      · have hp : 2 ^ (lengthOf la + 1) ≤ 2 ^ lengthOf la' := Nat.pow_le_pow_right (by decide) hlt
        rw [Nat.pow_succ] at hp
        omega
      · exact heq
      · have hp : 2 ^ (lengthOf la' + 1) ≤ 2 ^ lengthOf la := Nat.pow_le_pow_right (by decide) hgt
        rw [Nat.pow_succ] at hp
        omega
    refine ⟨hlen, ?_⟩
    simp only [prefixWord, hlen] at e ⊢
    omega
  · rintro ⟨hlen, htop⟩
    rw [prefixWord, htop, prefixWord, hlen]

def Bigtable.slots (t : Bigtable) : SlotTable Nat := ⟨t.rib, t.bigtable, t.bigtableIndex⟩

def SlotTable.tables (t : SlotTable Nat) : Bigtable := ⟨t.slot, t.key, t.next⟩

/-- A short prefix is looked up as the key `prefixWord`; neither assertion can fail. -/
theorem lookupRib64_short (t : Bigtable) {la : Nat} (h : lengthOf la ≤ 24) :
    lookupRib64 t la = .ok ((t.slots.lookup (prefixWord la)).1,
      SlotTable.tables (t.slots.lookup (prefixWord la)).2) := by
  have hlt : prefixWord la < ribSize :=
    (prefixWord_lt la h).trans_le (by decide)
  rw [lookupRib64, if_pos (by omega), lookupRib, encode_eq la h]
  by_cases hk : t.rib (prefixWord la) = 0
  · simp [assert, hlt, hk, SlotTable.lookup, Bigtable.slots, SlotTable.tables, bind, Except.bind,
      pure, Except.pure]
  · simp [assert, hlt, hk, SlotTable.lookup, Bigtable.slots, SlotTable.tables, bind, Except.bind,
      pure, Except.pure]

theorem lookupRib64_long (t : Bigtable) {la : Nat} (h : 24 < lengthOf la) :
    lookupRib64 t la = .ok (tooBig, t) := by
  rw [lookupRib64, if_neg (by omega)]
  rfl

end FastParse
