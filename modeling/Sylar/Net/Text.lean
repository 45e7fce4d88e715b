import Sylar.Net.Prefix

/-! # The text of an IPv6 address

RFC 4291 writes an address as eight groups of one to four hexadecimal digits, where one `::` may
stand for groups of zeros. `IPv6Address::insert` abbreviates the first groups of zeros, and its
text is read back as the same groups.
-/
namespace Sylar.Net
open Codec
open Sylar.ByteArray (Endian ofObjectBytes)

section Rules

/-- The value of a hexadecimal digit. -/
def hexDigit (c : Char) : Option ℕ :=
  if '0' ≤ c ∧ c ≤ '9' then some (c.toNat - '0'.toNat)
  else if 'a' ≤ c ∧ c ≤ 'f' then some (c.toNat - 'a'.toNat + 10)
  else if 'A' ≤ c ∧ c ≤ 'F' then some (c.toNat - 'A'.toNat + 10)
  else none

/-- The value of a group of one to four digits. -/
def parseGroup (s : List Char) : Option ℕ :=
  if 1 ≤ s.length ∧ s.length ≤ 4 then (s.mapM hexDigit).map (List.foldl (fun n d => 16 * n + d) 0)
  else none

/-- Groups with colons between them. -/
def parseGroups (s : List Char) : Option (List ℕ) := (s.splitOn ':').mapM parseGroup

/-- What stands on one side of the `::`. -/
def parseSide (s : List Char) : Option (List ℕ) := if s = [] then some [] else parseGroups s

/-- The text before and behind the first `::`. -/
def cut : List Char → Option (List Char × List Char)
  | [] => none
  | c :: s =>
    if c = ':' ∧ s.head? = some ':' then some ([], s.tail)
    else (cut s).map fun sides => (c :: sides.1, sides.2)

/-- The groups of a textual address. -/
def parseAddress (s : List Char) : Option (List ℕ) :=
  match cut s with
  | none => (parseGroups s).filter fun groups => groups.length = 8
  | some (left, right) => do
    let left ← parseSide left
    let right ← parseSide right
    if left.length + right.length < 8 then
      some (left ++ List.replicate (8 - (left.length + right.length)) 0 ++ right)
    else none

/-- How often `::` occurs in a text. -/
def doubleColons : List Char → ℕ
  | [] => 0
  | c :: s => (if c = ':' ∧ s.head? = some ':' then 1 else 0) + doubleColons s

end Rules

section Digits

variable {n : ℕ}

theorem hexDigit_digitChar : ∀ d < 16, hexDigit (Nat.digitChar d) = some d := by
  decide

theorem mapM_hexDigit_toDigits (n : ℕ) : ∃ ds, (Nat.toDigits 16 n).mapM hexDigit = some ds ∧
    ds.foldl (fun n d => 16 * n + d) 0 = n := by
  induction n using Nat.strong_induction_on with
  | _ n ih =>
    rw [Nat.toDigits_eq_if (by decide)]
    by_cases hn : n < 16
    · rw [if_pos hn]
      refine ⟨[n], ?_, by simp⟩
      simp [hexDigit_digitChar n hn]
    · rcases ih (n / 16) (by omega) with ⟨ds, hds, hvalue⟩
      have hlast := hexDigit_digitChar (n % 16) (Nat.mod_lt n (by decide))
      rw [if_neg hn]
      refine ⟨ds ++ [n % 16], ?_, ?_⟩
      · simp [hds, hlast]
      · rw [List.foldl_append, hvalue, List.foldl_cons, List.foldl_nil]
        omega

theorem parseGroup_toDigits (h : n < 65536) : parseGroup (Nat.toDigits 16 n) = some n := by
  have hpos : 1 ≤ (Nat.toDigits 16 n).length :=
    List.length_pos_iff.mpr Nat.toDigits_ne_nil
  have hlen : (Nat.toDigits 16 n).length ≤ 4 :=
    (Nat.length_toDigits_le_iff (by decide) (by decide)).mpr h
  rcases mapM_hexDigit_toDigits n with ⟨ds, hds, hvalue⟩
  rw [parseGroup, if_pos ⟨hpos, hlen⟩, hds, Option.map_some, hvalue]

/-- The characters of a number in hexadecimal. -/
theorem mem_toDigits {c : Char} (hc : c ∈ Nat.toDigits 16 n) : ∃ d < 16, c = Nat.digitChar d := by
  induction n using Nat.strong_induction_on with
  | _ n ih =>
    rw [Nat.toDigits_eq_if (by decide)] at hc
    split_ifs at hc with hn
    · exact ⟨n, hn, List.mem_singleton.mp hc⟩
    · rcases List.mem_append.mp hc with hc | hc
      · exact ih (n / 16) (by omega) hc
      · exact ⟨n % 16, Nat.mod_lt n (by decide), List.mem_singleton.mp hc⟩

theorem digitChar_plain : ∀ d < 16, Nat.digitChar d ≠ ':' ∧ Nat.digitChar d ≠ ']' := by
  decide

theorem plain_of_mem {c : Char} (hc : c ∈ Nat.toDigits 16 n) : c ≠ ':' ∧ c ≠ ']' := by
  rcases mem_toDigits hc with ⟨d, hd, rfl⟩
  exact digitChar_plain d hd

end Digits

section Joined

/-- Groups with a colon before each of them. -/
def behind (gs : List ℕ) : List Char := gs.flatMap fun g => ':' :: Nat.toDigits 16 g

/-- Groups with colons between them. -/
def joined : List ℕ → List Char
  | [] => []
  | g :: gs => Nat.toDigits 16 g ++ behind gs

variable {gs l r : List ℕ} {s t : List Char}

theorem behind_eq_joined (hne : gs ≠ []) : behind gs = ':' :: joined gs := by
  cases gs with
  | nil => exact absurd rfl hne
  | cons g gs => rfl

theorem joined_eq_intercalate (gs : List ℕ) :
    joined gs = [':'].intercalate (gs.map (Nat.toDigits 16)) := by
  induction gs with
  | nil => rfl
  | cons g gs ih =>
    cases gs with
    | nil => simp [joined, behind, List.intercalate]
    | cons g' gs =>
      rw [joined, behind_eq_joined (List.cons_ne_nil g' gs), ih, List.map_cons, List.map_cons,
        List.map_cons, List.intercalate_cons_cons, List.append_assoc]
      rfl

theorem parseGroups_joined (hne : gs ≠ []) (h : ∀ g ∈ gs, g < 65536) :
    parseGroups (joined gs) = some gs := by
  have hplain : ∀ w ∈ gs.map (Nat.toDigits 16), ':' ∉ w := by
    intro w hw
    rcases List.mem_map.mp hw with ⟨g, -, rfl⟩
    exact fun hc => (plain_of_mem hc).1 rfl
  rw [parseGroups, joined_eq_intercalate,
    List.splitOn_intercalate ':' hplain (mt List.map_eq_nil_iff.mp hne)]
  clear hne hplain
  induction gs with
  | nil => rfl
  | cons g gs ih =>
    rw [List.forall_mem_cons] at h
    simp [parseGroup_toDigits h.1, ih h.2]

theorem joined_ne_nil (hne : gs ≠ []) : joined gs ≠ [] := by
  cases gs with
  | nil => exact absurd rfl hne
  | cons g gs => exact List.append_ne_nil_of_left_ne_nil Nat.toDigits_ne_nil _

theorem parseSide_joined (h : ∀ g ∈ gs, g < 65536) : parseSide (joined gs) = some gs := by
  by_cases hne : gs = []
  · subst hne
    rfl
  · rw [parseSide, if_neg (joined_ne_nil hne), parseGroups_joined hne h]

/-- There is no `::` in the text, and none begins at its end. -/
def Calm (s : List Char) : Prop := doubleColons s = 0 ∧ s.getLast? ≠ some ':'

theorem doubleColons_append (s t : List Char) : doubleColons (s ++ t) =
    doubleColons s + (if s.getLast? = some ':' ∧ t.head? = some ':' then 1 else 0) +
      doubleColons t := by
  induction s with
  | nil => simp [doubleColons]
  | cons c s ih =>
    cases s with
    | nil => simp [doubleColons]
    | cons d s =>
      have hhead : (d :: s ++ t).head? = (d :: s).head? := rfl
      rw [List.cons_append, doubleColons.eq_2, ih, doubleColons.eq_2 c, List.getLast?_cons_cons,
        hhead]
      omega

theorem Calm.append (hs : Calm s) (ht : Calm t) : Calm (s ++ t) := by
  constructor
  · rw [doubleColons_append, hs.1, ht.1, if_neg fun h => hs.2 h.1]
  · rw [List.getLast?_append]
    cases hlast : t.getLast? with
    | none => exact hs.2
    | some c => exact fun h => ht.2 (hlast.trans h)

theorem calm_of_not_mem (h : ':' ∉ s) : Calm s := by
  constructor
  · induction s with
    | nil => rfl
    | cons c s ih =>
      rw [List.mem_cons, not_or] at h
      rw [doubleColons, ih h.2, if_neg fun hc => h.1 hc.1.symm]
  · exact fun hlast => h (List.mem_of_getLast? hlast)

theorem calm_toDigits (n : ℕ) : Calm (Nat.toDigits 16 n) :=
  calm_of_not_mem fun hc => (plain_of_mem hc).1 rfl

theorem head_toDigits (n : ℕ) (s : List Char) : (Nat.toDigits 16 n ++ s).head? ≠ some ':' := by
  cases hdigits : Nat.toDigits 16 n with
  | nil => exact absurd hdigits Nat.toDigits_ne_nil
  | cons c cs =>
    intro hhead
    have hc : c ∈ Nat.toDigits 16 n := hdigits ▸ List.mem_cons_self
    exact (plain_of_mem hc).1 (Option.some.inj hhead)

theorem calm_behind (gs : List ℕ) : Calm (behind gs) := by
  induction gs with
  | nil => exact ⟨rfl, nofun⟩
  | cons g gs ih =>
    have hhead := head_toDigits g []
    rw [List.append_nil] at hhead
    have hfirst : Calm (':' :: Nat.toDigits 16 g) := by
      constructor
      · rw [doubleColons, (calm_toDigits g).1, if_neg fun h => hhead h.2]
      · rw [List.getLast?_cons_of_ne_nil Nat.toDigits_ne_nil]
        exact (calm_toDigits g).2
    exact hfirst.append ih

theorem calm_joined (gs : List ℕ) : Calm (joined gs) := by
  cases gs with
  | nil => exact ⟨rfl, nofun⟩
  | cons g gs => exact (calm_toDigits g).append (calm_behind gs)

theorem head_joined (gs : List ℕ) : (joined gs).head? ≠ some ':' := by
  cases gs with
  | nil => exact nofun
  | cons g gs => exact head_toDigits g _

theorem cut_calm (h : doubleColons s = 0) : cut s = none := by
  induction s with
  | nil => rfl
  | cons c s ih =>
    rw [doubleColons, Nat.add_eq_zero_iff] at h
    have hc : ¬(c = ':' ∧ s.head? = some ':') := fun hc => by simp [hc] at h
    rw [cut, if_neg hc, ih h.2]
    rfl

theorem cut_append (hs : Calm s) (t : List Char) : cut (s ++ ':' :: ':' :: t) = some (s, t) := by
  induction s with
  | nil => rfl
  | cons c s ih =>
    have hcalm := hs.1
    rw [doubleColons, Nat.add_eq_zero_iff] at hcalm
    have hlast : s.getLast? ≠ some ':' := by
      cases s with
      | nil => exact nofun
      | cons d s => exact List.getLast?_cons_cons ▸ hs.2
    have hc : ¬(c = ':' ∧ (s ++ ':' :: ':' :: t).head? = some ':') := by
      rintro ⟨rfl, hhead⟩
      cases s with
      | nil => exact hs.2 rfl
      | cons d s =>
        rw [List.cons_append, List.head?_cons] at hhead
        simp [hhead] at hcalm
    rw [List.cons_append, cut, if_neg hc, ih ⟨hcalm.2, hlast⟩]
    rfl

theorem doubleColons_around (l r : List ℕ) :
    doubleColons (joined l ++ ':' :: ':' :: joined r) = 1 := by
  have hright : doubleColons (':' :: joined r) = 0 := by
    rw [doubleColons, (calm_joined r).1, if_neg fun h => head_joined r h.2]
  rw [doubleColons_append, (calm_joined l).1, if_neg fun h => (calm_joined l).2 h.1,
    doubleColons, hright]
  rfl

/-- Eight groups of which some zeros are left out. -/
theorem parseAddress_around {k : ℕ} (hl : ∀ g ∈ l, g < 65536) (hr : ∀ g ∈ r, g < 65536)
    (hk : 0 < k) (hlen : (l ++ List.replicate k 0 ++ r).length = 8) :
    parseAddress (joined l ++ ':' :: ':' :: joined r) = some (l ++ List.replicate k 0 ++ r) := by
  simp only [List.length_append, List.length_replicate] at hlen
  have hmissing : 8 - (l.length + r.length) = k := by omega
  rw [parseAddress, cut_append (calm_joined l)]
  simp only [parseSide_joined hl, parseSide_joined hr, bind, Option.bind]
  rw [if_pos (by omega), hmissing]

theorem parseAddress_whole (h : ∀ g ∈ gs, g < 65536) (hlen : gs.length = 8) :
    parseAddress (joined gs) = some gs := by
  have hne : gs ≠ [] := List.ne_nil_of_length_pos (by omega)
  rw [parseAddress, cut_calm (calm_joined gs).1]
  dsimp only
  rw [parseGroups_joined hne h, Option.filter_some, if_pos (by simpa using hlen)]

end Joined

namespace SockaddrIn6

variable (host : Endian)

/-- The groups of an address. -/
def groups (a : SockaddrIn6) : List ℕ :=
  (List.range 8).map fun i =>
    256 * (a.addr[2 * i]?.getD 0).toNat + (a.addr[2 * i + 1]?.getD 0).toNat

/-- The group that a word holds. -/
def valueOf (word : BitVec 16) : ℕ := (byteswapOnLittleEndian host word).toNat

theorem valueOf_ofObjectBytes (x y : UInt8) :
    valueOf host (ofObjectBytes host 16 [x, y]) = 256 * x.toNat + y.toNat := by
  have hx := x.toNat_lt
  have hy := y.toNat_lt
  have hlt (u v : UInt8) : natOf [u, v] = u.toNat + 256 * v.toNat := by simp [natOf]
  cases host with
  | big =>
    change (BitVec.ofNat 16 (natOf [y, x])).toNat = _
    rw [BitVec.toNat_ofNat, hlt]
    omega
  | little =>
    have hbytes : bytesOf 2 (natOf [x, y]) = [x, y] := bytesOf_natOf [x, y]
    change (byteswap (BitVec.ofNat 16 (natOf [x, y]))).toNat = _
    rw [byteswap, BitVec.toNat_ofNat, BitVec.toNat_ofNat, hlt,
      Nat.mod_eq_of_lt (show x.toNat + 256 * y.toNat < 2 ^ 16 by omega), ← hlt, hbytes]
    change natOf [y, x] % 2 ^ 16 = _
    rw [hlt]
    omega

theorem valueOf_words (a : SockaddrIn6) : (a.words host).map (valueOf host) = a.groups := by
  rw [words, List.map_map, groups]
  apply List.map_congr_left
  intro i _
  exact valueOf_ofObjectBytes host _ _

theorem valueOf_lt (word : BitVec 16) : valueOf host word < 65536 :=
  (byteswapOnLittleEndian host word).isLt

theorem valueOf_zero : valueOf host 0 = 0 := by
  cases host <;> decide

/-- After the `::` every group is written. -/
theorem insertWords_used (word : BitVec 16) (gs : List (BitVec 16)) :
    insertWords host (some word) true gs = (behind (gs.map (valueOf host)), true) := by
  induction gs generalizing word with
  | nil => rfl
  | cons g gs ih =>
    rw [insertWords, if_neg (by simp)]
    simp [ih, behind, valueOf]

/-- Groups in front of the first zero. -/
theorem insertWords_front {l : List (BitVec 16)} (hl : ∀ g ∈ l, g ≠ 0) (rest : List (BitVec 16))
    {before : Option (BitVec 16)} (hbefore : before ≠ some 0) :
    ∃ last, (l ≠ [] → last ≠ some 0) ∧ (l = [] → last = before) ∧
      insertWords host before false (l ++ rest) =
        ((if before.isSome then behind (l.map (valueOf host)) else joined (l.map (valueOf host))) ++
          (insertWords host last false rest).1, (insertWords host last false rest).2) := by
  induction l generalizing before with
  | nil => exact ⟨before, fun h => absurd rfl h, fun _ => rfl, by cases before <;> rfl⟩
  | cons g l ih =>
    rw [List.forall_mem_cons] at hl
    have hg : some g ≠ some 0 := fun h => hl.1 (Option.some.inj h)
    rcases ih hl.2 hg with ⟨last, hlast, hnil, hrest⟩
    refine ⟨last, fun _ => ?_, fun h => absurd h (List.cons_ne_nil g l), ?_⟩
    · by_cases hl' : l = []
      · rw [hnil hl']
        exact hg
      · exact hlast hl'
    · rw [List.cons_append, insertWords, if_neg fun h => hl.1 h.1]
      dsimp only
      rw [decide_eq_false fun h => hbefore h.1, Bool.or_false, hrest]
      cases before <;> simp [behind, joined, valueOf]

/-- Zeros before the `::` are passed. -/
theorem insertWords_zeros (before : Option (BitVec 16)) (k : ℕ) (rest : List (BitVec 16)) :
    insertWords host before false (List.replicate (k + 1) 0 ++ rest) =
      insertWords host (some 0) false rest := by
  induction k generalizing before with
  | zero => rw [List.replicate_one, List.singleton_append, insertWords, if_pos ⟨rfl, rfl⟩]
  | succ k ih => rw [List.replicate_succ, List.cons_append, insertWords, if_pos ⟨rfl, rfl⟩, ih]

/-- The first group behind the zeros writes the `::`. -/
theorem insertWords_open {g : BitVec 16} (hg : g ≠ 0) (gs : List (BitVec 16)) :
    insertWords host (some 0) false (g :: gs) =
      (':' :: ':' :: joined ((g :: gs).map (valueOf host)), true) := by
  rw [insertWords, if_neg fun h => hg h.1]
  simp [insertWords_used, joined, valueOf]

/-- The groups up to the first zero, the zeros there, and the rest. -/
theorem split_zeros (gs : List (BitVec 16)) : ∃ l k r, gs = l ++ List.replicate k 0 ++ r ∧
    (∀ g ∈ l, g ≠ 0) ∧ (k = 0 → r = []) ∧ ∀ g ∈ r.head?, g ≠ 0 := by
  induction gs with
  | nil => exact ⟨[], 0, [], rfl, nofun, fun _ => rfl, nofun⟩
  | cons g gs ih =>
    rcases ih with ⟨l, k, r, rfl, hl, hk, hr⟩
    by_cases hg : g = 0
    · subst hg
      cases l with
      | nil =>
        exact ⟨[], k + 1, r, by simp [List.replicate_succ], nofun, fun h => absurd h (by omega), hr⟩
      | cons g' l =>
        refine ⟨[], 1, g' :: l ++ List.replicate k 0 ++ r, by simp, nofun,
          fun h => absurd h (by omega), ?_⟩
        intro x hx
        cases hx
        exact hl g' List.mem_cons_self
    · exact ⟨g :: l, k, r, by simp, List.forall_mem_cons.mpr ⟨hg, hl⟩, hk, hr⟩

/-- The text of an address: all groups, or those around the zeros that are left out. -/
theorem addressText_cases (a : SockaddrIn6) :
    a.addressText host = joined a.groups ∨
    ∃ l k r, 0 < k ∧ a.groups = l ++ List.replicate k 0 ++ r ∧
      a.addressText host = joined l ++ ':' :: ':' :: joined r := by
  rcases split_zeros (a.words host) with ⟨l, k, r, hsplit, hl, hk, hr⟩
  have hvalues := valueOf_words host a
  have hnone : (none : Option (BitVec 16)) ≠ some 0 := nofun
  rcases insertWords_front host hl (List.replicate k 0 ++ r) hnone with ⟨last, -, -, hfront⟩
  rw [← List.append_assoc, ← hsplit] at hfront
  rw [addressText, hfront]
  dsimp only
  cases k with
  | zero =>
    have hr' : r = [] := hk rfl
    subst hr'
    rw [List.replicate_zero, List.append_nil, List.append_nil] at hsplit
    have hlast : ¬(false = false ∧ (a.words host).getLast? = some 0) := by
      rintro ⟨-, hzero⟩
      rw [hsplit] at hzero
      exact hl 0 (List.mem_of_getLast? hzero) rfl
    left
    rw [List.replicate_zero, List.nil_append, insertWords, if_neg hlast, List.append_nil,
      List.append_nil, ← hvalues, hsplit]
    rfl
  | succ k =>
    right
    refine ⟨l.map (valueOf host), k + 1, r.map (valueOf host), Nat.succ_pos k, ?_, ?_⟩
    · rw [← hvalues, hsplit, List.map_append, List.map_append, List.map_replicate, valueOf_zero]
    · rw [insertWords_zeros]
      cases r with
      | nil =>
        have hlast : false = false ∧ (a.words host).getLast? = some 0 := by
          rw [hsplit, List.append_nil, List.getLast?_append, List.getLast?_replicate,
            if_neg (Nat.succ_ne_zero k), Option.some_or]
          exact ⟨rfl, rfl⟩
        rw [insertWords, if_pos hlast, List.append_nil]
        rfl
      | cons g r =>
        rw [insertWords_open host (hr g rfl)]
        simp

theorem groups_lt (a : SockaddrIn6) : ∀ g ∈ a.groups, g < 65536 := by
  rw [← valueOf_words .big]
  intro g hg
  rcases List.mem_map.mp hg with ⟨word, -, rfl⟩
  exact valueOf_lt .big word

theorem length_groups (a : SockaddrIn6) : a.groups.length = 8 := by
  rw [groups, List.length_map, List.length_range]

theorem parse_addressText (a : SockaddrIn6) :
    doubleColons (a.addressText host) ≤ 1 ∧ parseAddress (a.addressText host) = some a.groups := by
  have hlt := groups_lt a
  have hlen := length_groups a
  rcases addressText_cases host a with htext | ⟨l, k, r, hk, hgroups, htext⟩
  · rw [htext, (calm_joined a.groups).1]
    exact ⟨Nat.zero_le 1, parseAddress_whole hlt hlen⟩
  · rw [hgroups, List.forall_mem_append, List.forall_mem_append] at hlt
    rw [hgroups] at hlen
    rw [htext, doubleColons_around, hgroups]
    exact ⟨le_rfl, parseAddress_around hlt.1.1 hlt.2 hk hlen⟩

/-- The bytes of an address are those of its groups. -/
theorem addr_eq_of_groups {a b : SockaddrIn6} (h : a.groups = b.groups) : a.addr = b.addr := by
  have hpair : ∀ i < 8, a.addr[2 * i]?.getD 0 = b.addr[2 * i]?.getD 0 ∧
      a.addr[2 * i + 1]?.getD 0 = b.addr[2 * i + 1]?.getD 0 := by
    intro i hi
    have hvalue := congrArg (fun l : List ℕ => l[i]?) h
    simp only [groups, List.getElem?_map, List.getElem?_range hi, Option.map_some,
      Option.some.injEq] at hvalue
    have hx := (a.addr[2 * i + 1]?.getD 0).toNat_lt
    have hy := (b.addr[2 * i + 1]?.getD 0).toNat_lt
    exact ⟨UInt8.toNat_inj.mp (by omega), UInt8.toNat_inj.mp (by omega)⟩
  apply Vector.ext
  intro i hi
  have hbyte : a.addr[i]?.getD 0 = b.addr[i]?.getD 0 := by
    rcases Nat.even_or_odd' i with ⟨k, rfl | rfl⟩
    · exact (hpair k (by omega)).1
    · exact (hpair k (by omega)).2
  rwa [Vector.getElem?_eq_getElem hi, Vector.getElem?_eq_getElem hi] at hbyte

theorem not_mem_behind (gs : List ℕ) : ']' ∉ behind gs := by
  intro h
  rcases List.mem_flatMap.mp h with ⟨g, -, hg⟩
  rcases List.mem_cons.mp hg with hc | hc
  · exact absurd hc (by decide)
  · exact (plain_of_mem hc).2 rfl

theorem not_mem_joined (gs : List ℕ) : ']' ∉ joined gs := by
  cases gs with
  | nil => exact List.not_mem_nil
  | cons g gs =>
    rw [joined, List.mem_append, not_or]
    exact ⟨fun hc => (plain_of_mem hc).2 rfl, not_mem_behind gs⟩

theorem not_mem_addressText (a : SockaddrIn6) : ']' ∉ a.addressText host := by
  rcases addressText_cases host a with htext | ⟨l, k, r, -, -, htext⟩
  · rw [htext]
    exact not_mem_joined _
  · rw [htext, List.mem_append, List.mem_cons, List.mem_cons]
    rintro (h | h | h | h)
    · exact not_mem_joined l h
    · exact absurd h (by decide)
    · exact absurd h (by decide)
    · exact not_mem_joined r h

/-- The text up to the bracket, and what follows it. -/
theorem eq_of_bracket {s s' t t' : List Char} (hs : ']' ∉ s) (hs' : ']' ∉ s')
    (h : s ++ ']' :: t = s' ++ ']' :: t') : s = s' ∧ t = t' := by
  have hfront {u v : List Char} (hu : ']' ∉ u) : (u ++ ']' :: v).takeWhile (· ≠ ']') = u := by
    have hall : ∀ c ∈ u, decide (c ≠ ']') = true := by
      intro c hc
      rw [decide_eq_true_eq]
      rintro rfl
      exact hu hc
    rw [List.takeWhile_append_of_pos hall, List.takeWhile_cons_of_neg (by decide), List.append_nil]
  have heq : s = s' := by rw [← hfront hs, h, hfront hs']
  subst heq
  exact ⟨rfl, (List.cons.inj (List.append_cancel_left h)).2⟩

theorem toDigits_inj {m n : ℕ} (h : Nat.toDigits 10 m = Nat.toDigits 10 n) : m = n := by
  rw [← Nat.ofDigitChars_ten_toDigits (n := m), h, Nat.ofDigitChars_ten_toDigits]

/-- The text between the brackets is a textual address with at most one `::` that means the same
groups, and only the same address and port are written alike. -/
theorem insert_parses (host : Endian) (a b : SockaddrIn6) :
    doubleColons (a.addressText host) ≤ 1 ∧
    parseAddress (a.addressText host) = some a.groups ∧
    (a.insert host = b.insert host ↔ a.addr = b.addr ∧ a.port = b.port) := by
  have hparse := parse_addressText host a
  refine ⟨hparse.1, hparse.2, ?_, ?_⟩
  · intro h
    simp only [insert, List.cons_append, List.append_assoc, List.nil_append,
      List.cons.injEq] at h
    rcases eq_of_bracket (not_mem_addressText host a) (not_mem_addressText host b) h.2 with
      ⟨htext, hport⟩
    constructor
    · apply addr_eq_of_groups
      have hb := (parse_addressText host b).2
      rw [← htext, hparse.2] at hb
      exact Option.some.inj hb
    · have hnumber := BitVec.eq_of_toNat_eq (toDigits_inj (List.cons.inj hport).2)
      have hswap := congrArg (byteswapOnLittleEndian host) hnumber
      rwa [getPort, getPort, swap_swap host (by decide), swap_swap host (by decide)] at hswap
  · rintro ⟨haddr, hport⟩
    rw [insert, insert, addressText, addressText, words, words, getPort, getPort, haddr, hport]

end SockaddrIn6

end Sylar.Net
