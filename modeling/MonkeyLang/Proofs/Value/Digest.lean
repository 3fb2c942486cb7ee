import MonkeyLang.Proofs.Value.Hash

/-!
# Digests of neighbouring byte strings

A step of the digest forgets nothing: the exclusive or can be undone, and so can the multiplication,
since the prime has an inverse modulo 2⁶⁴. So what follows two byte strings neither brings their
digests together nor takes them apart (`fnv1a_append_inj`). A byte changes no more than the lowest
eight bits of a digest, and the prime carries a change there further up than the next byte reaches
(`eq_of_mul_digestPrime`). Hence strings that differ in one byte or in two adjacent bytes are
different keys, although a hash compares nothing but digests. Read `fnv1a_separates_neighbours`
first.
-/

namespace MonkeyLang

/-! ## Steps of the digest -/

variable {word word' digest digest' : UInt64} {byte byte' next next' : UInt8}

/-- The inverse of the prime modulo 2⁶⁴. -/
def digestInverse : UInt64 := 0xce965057aff6957b

/-- The inverse undoes a multiplication by the prime. -/
theorem mul_digestPrime_mul_digestInverse (word : UInt64) :
    word * digestPrime * digestInverse = word := by
  have hinverse : digestPrime * digestInverse = 1 := by decide
  rw [UInt64.mul_assoc, hinverse, UInt64.mul_one]

/-- Products with the prime are the same only for the same word. -/
theorem mul_digestPrime_inj : word * digestPrime = word' * digestPrime ↔ word = word' := by
  refine ⟨fun hproduct => ?_, fun hword => by rw [hword]⟩
  calc word
      = word * digestPrime * digestInverse := (mul_digestPrime_mul_digestInverse word).symm
    _ = word' * digestPrime * digestInverse := by rw [hproduct]
    _ = word' := mul_digestPrime_mul_digestInverse word'

/-- The same byte keeps digests apart. -/
theorem digestStep_inj : digestStep digest byte = digestStep digest' byte ↔ digest = digest' := by
  unfold digestStep
  rw [mul_digestPrime_inj, UInt64.xor_left_inj]

/-- Different bytes take the same digest to different ones. -/
theorem digestStep_byte_inj : digestStep digest byte = digestStep digest byte' ↔ byte = byte' := by
  unfold digestStep
  rw [mul_digestPrime_inj, UInt64.xor_right_inj, UInt8.toUInt64_inj]

/-- The exclusive or with a byte keeps all but the lowest eight bits. -/
theorem toNat_xor_byte_div (word : UInt64) (byte : UInt8) :
    (word ^^^ byte.toUInt64).toNat / 256 = word.toNat / 256 := by
  have hbyte : byte.toNat / 256 = 0 := Nat.div_eq_of_lt byte.toNat_lt
  have hapart : (word.toNat ^^^ byte.toNat) / 256 = word.toNat / 256 ^^^ byte.toNat / 256 :=
    Nat.xor_div_two_pow (n := 8)
  rw [UInt64.toNat_xor, UInt8.toNat_toUInt64, hapart, hbyte, Nat.xor_zero]

/-- Two words that differ at most in their lowest eight bits are the same if their products with the
prime differ at most there too. -/
theorem eq_of_mul_digestPrime (hword : word.toNat / 256 = word'.toNat / 256)
    (hproduct : (word * digestPrime).toNat / 256 = (word' * digestPrime).toNat / 256) :
    word = word' := by
  have hprime : digestPrime.toNat = 2 ^ 40 + 435 := rfl
  rw [UInt64.toNat_mul, UInt64.toNat_mul, hprime] at hproduct
  -- The exact products are less than 2⁴⁹ apart, so that as many multiples of 2⁶⁴ fit into one as
  -- into the other. The exact products are then less than 2⁸ apart, and the prime is greater.
  have hmultiples : word.toNat * (2 ^ 40 + 435) / 2 ^ 64 =
      word'.toNat * (2 ^ 40 + 435) / 2 ^ 64 := by
    omega
  refine UInt64.toNat_inj.mp ?_
  omega

/-- No byte takes back what a difference in the byte before it has done to the digest. -/
theorem digestStep_digestStep_inj :
    digestStep (digestStep digest byte) next = digestStep (digestStep digest byte') next' ↔
      byte = byte' ∧ next = next' := by
  refine ⟨fun hsame => ?_, fun ⟨hbyte, hnext⟩ => by rw [hbyte, hnext]⟩
  have hxor : digestStep digest byte ^^^ next.toUInt64 =
      digestStep digest byte' ^^^ next'.toUInt64 := mul_digestPrime_inj.mp hsame
  have hbefore : (digest ^^^ byte.toUInt64).toNat / 256 =
      (digest ^^^ byte'.toUInt64).toNat / 256 := by
    rw [toNat_xor_byte_div, toNat_xor_byte_div]
  have hafter : (digestStep digest byte).toNat / 256 =
      (digestStep digest byte').toNat / 256 := by
    rw [← toNat_xor_byte_div _ next, hxor, toNat_xor_byte_div]
  have hfirst := eq_of_mul_digestPrime hbefore hafter
  rw [UInt64.xor_right_inj, UInt8.toUInt64_inj] at hfirst
  subst hfirst
  exact ⟨rfl, digestStep_byte_inj.mp hsame⟩

/-! ## Runs of the digest -/

/-- The same bytes keep digests apart. -/
theorem foldl_digestStep_inj (bytes : List UInt8) :
    bytes.foldl digestStep digest = bytes.foldl digestStep digest' ↔ digest = digest' := by
  induction bytes generalizing digest digest' with
  | nil => rfl
  | cons byte bytes ih => rw [List.foldl_cons, List.foldl_cons, ih, digestStep_inj]

/-- At most two bytes are determined by the digests before and after them. -/
theorem eq_of_foldl_digestStep {bytes bytes' : List UInt8} (hlength : bytes.length = bytes'.length)
    (hshort : bytes.length ≤ 2)
    (hsame : bytes.foldl digestStep digest = bytes'.foldl digestStep digest) : bytes = bytes' := by
  match bytes, bytes', hlength with
  | [], [], _ => rfl
  | [_], [_], _ => rw [digestStep_byte_inj.mp hsame]
  | [_, _], [_, _], _ =>
      obtain ⟨rfl, rfl⟩ := digestStep_digestStep_inj.mp hsame
      rfl
  | _ :: _ :: _ :: _, _, _ => simp at hshort

/-- The digest of a byte string goes on with the bytes behind it. -/
theorem fnv1a_append (bytes after : List UInt8) :
    fnv1a (bytes ++ after) = after.foldl digestStep (fnv1a bytes) :=
  List.foldl_append

/-- The bytes behind two byte strings do not change whether their digests are the same. -/
theorem fnv1a_append_inj {bytes bytes' : List UInt8} (after : List UInt8) :
    fnv1a (bytes ++ after) = fnv1a (bytes' ++ after) ↔ fnv1a bytes = fnv1a bytes' := by
  rw [fnv1a_append, fnv1a_append, foldl_digestStep_inj]

/-- At most two bytes are determined by the digest and all the bytes around them. -/
theorem eq_of_fnv1a_between {bytes bytes' : List UInt8} (before after : List UInt8)
    (hlength : bytes.length = bytes'.length) (hshort : bytes.length ≤ 2)
    (hsame : fnv1a (before ++ bytes ++ after) = fnv1a (before ++ bytes' ++ after)) :
    bytes = bytes' := by
  rw [fnv1a_append_inj, fnv1a_append, fnv1a_append] at hsame
  exact eq_of_foldl_digestStep hlength hshort hsame

/-! ## Neighbouring byte strings -/

/-- The byte strings have one length and differ in one byte or in two adjacent bytes. -/
structure Neighbours (bytes bytes' : List UInt8) : Prop where
  differ : bytes ≠ bytes'
  length_eq : bytes.length = bytes'.length
  agree : ∃ place, ∀ other, other ≠ place → other ≠ place + 1 → bytes[other]? = bytes'[other]?

namespace Neighbours

variable {bytes bytes' : List UInt8}

/-- Neighbours are the same in front of the bytes that differ and behind them. -/
theorem exists_split (hneighbours : Neighbours bytes bytes') :
    ∃ before middle middle' after, bytes = before ++ middle ++ after ∧
      bytes' = before ++ middle' ++ after ∧ middle.length = middle'.length ∧
        middle.length ≤ 2 := by
  obtain ⟨place, hagree⟩ := hneighbours.agree
  have hbefore : bytes.take place = bytes'.take place := by
    refine List.ext_getElem? fun other => ?_
    rw [List.getElem?_take, List.getElem?_take]
    split
    · exact hagree other (by omega) (by omega)
    · rfl
  have hafter : bytes.drop (place + 2) = bytes'.drop (place + 2) := by
    refine List.ext_getElem? fun other => ?_
    rw [List.getElem?_drop, List.getElem?_drop]
    exact hagree _ (by omega) (by omega)
  have hsplit : ∀ bytes : List UInt8,
      bytes = bytes.take place ++ (bytes.drop place).take 2 ++ bytes.drop (place + 2) := by
    intro bytes
    rw [List.append_assoc, ← List.drop_drop, List.take_append_drop, List.take_append_drop]
  refine ⟨_, _, (bytes'.drop place).take 2, _, hsplit bytes, ?_, ?_, List.length_take_le _ _⟩
  · rw [hbefore, hafter]
    exact hsplit bytes'
  · rw [List.length_take, List.length_take, List.length_drop, List.length_drop,
      hneighbours.length_eq]

/-- Neighbours have different digests. -/
theorem fnv1a_ne (hneighbours : Neighbours bytes bytes') : fnv1a bytes ≠ fnv1a bytes' := by
  intro hsame
  apply hneighbours.differ
  obtain ⟨before, middle, middle', after, rfl, rfl, hlength, hshort⟩ := hneighbours.exists_split
  rw [eq_of_fnv1a_between before after hlength hshort hsame]

end Neighbours

/-- At most two bytes are determined by the digest and all the bytes around them, and the bytes
behind two byte strings do not change whether their digests are the same. So strings that differ in
one byte or in two adjacent bytes have different hash keys, and an insertion under the one is found
there and leaves what is found under the other alone. -/
theorem fnv1a_separates_neighbours :
    (∀ before bytes bytes' after : List UInt8, bytes.length = bytes'.length → bytes.length ≤ 2 →
      fnv1a (before ++ bytes ++ after) = fnv1a (before ++ bytes' ++ after) → bytes = bytes') ∧
    (∀ bytes bytes' after : List UInt8,
      fnv1a (bytes ++ after) = fnv1a (bytes' ++ after) ↔ fnv1a bytes = fnv1a bytes') ∧
    ∀ text text' : String, Neighbours (utf8 text) (utf8 text') →
      ∃ hashKey hashKey', (Value.str text).hashKey = .ok hashKey ∧
        (Value.str text').hashKey = .ok hashKey' ∧ hashKey ≠ hashKey' ∧
        ∀ (value : Value) (entries : List (Entry Value)),
          let inserted := Value.hash (insertEntry ⟨hashKey, .str text, value⟩ entries)
          inserted.indexBy (.str text) = .ok value ∧
            inserted.indexBy (.str text') = (Value.hash entries).indexBy (.str text') := by
  refine ⟨fun before _ _ after => eq_of_fnv1a_between before after,
    fun _ _ after => fnv1a_append_inj after, fun text text' hneighbours => ?_⟩
  have hne : (⟨.string, fnv1a (utf8 text)⟩ : HashKey) ≠ ⟨.string, fnv1a (utf8 text')⟩ :=
    fun hsame => hneighbours.fnv1a_ne (HashKey.mk.inj hsame).2
  refine ⟨_, _, rfl, rfl, hne, fun value entries => ⟨?_, ?_⟩⟩
  · exact Value.indexBy_insertEntry_self rfl entries
  · exact Value.indexBy_insertEntry_of_ne rfl hne entries

/-- Two letters in the wrong order make another key. -/
theorem fnv1a_separates_neighbours_transposed :
    fnv1a ([102] ++ [111, 114] ++ [109]) ≠ fnv1a ([102] ++ [114, 111] ++ [109]) ∧
    Neighbours (utf8 "form") (utf8 "from") ∧
    ∃ hashKey, (Value.str "form").hashKey = .ok hashKey ∧
      (Value.hash (insertEntry ⟨hashKey, .str "form", .int 1⟩ [])).indexBy (.str "from") =
        .ok .null := by
  obtain ⟨hbetween, _, hkeys⟩ := fnv1a_separates_neighbours
  have hform : utf8 "form" = [102, 111, 114, 109] := by decide +kernel
  have hfrom : utf8 "from" = [102, 114, 111, 109] := by decide +kernel
  have hneighbours : Neighbours (utf8 "form") (utf8 "from") := by
    rw [hform, hfrom]
    refine ⟨by decide, rfl, 1, fun other hfirst hsecond => ?_⟩
    match other with
    | 0 | 3 | _ + 4 => rfl
    | 1 | 2 => contradiction
  obtain ⟨hashKey, _, hhashKey, _, _, hindex⟩ := hkeys _ _ hneighbours
  refine ⟨fun hsame => ?_, hneighbours, hashKey, hhashKey, (hindex (.int 1) []).2⟩
  exact absurd (hbetween [102] [111, 114] [114, 111] [109] rfl (by decide) hsame) (by decide)

end MonkeyLang
