import TiFlash.DM.Proofs.RowKeyOrderProofs
import TiFlash.Transaction.TiKVRecordFormat

/-!
# Proofs: the format of TiKV keys

The encoding of keys is injective, prefix-free and monotone, whatever stands behind it. The decoder accepts
exactly what starts with an encoding.
-/

namespace TiFlash.Transaction.RecordKVFormat

open TiFlash.DM TiFlash.Lib List

/-! ## One group -/

variable {group : Bytes}

theorem length_encodeGroup (h : group.length ≤ 8) : (encodeGroup group).length = 9 := by
  simp only [encodeGroup, encGroupSize, length_append, length_replicate, length_singleton]
  omega

variable {m n : Nat}

theorem marker_lt (hmn : m < n) (hn : n ≤ 8) :
    encMarker - Fin.ofNat 256 (8 - m) < encMarker - Fin.ofNat 256 (8 - n) := by
  rw [Fin.lt_def, Fin.sub_def, Fin.sub_def]
  simp only [encMarker, Fin.ofNat]
  omega

variable {g g' : Bytes}

/-- Padding and a larger marker behind the longer one keep the order of two groups, whatever the size
that they are padded to. -/
theorem pad_lt_pad (hg : g.length ≤ n) (hg' : g'.length ≤ n) (h : g < g')
    {m m' : Byte} (hmarker : g.length < g'.length → m < m') :
    g ++ replicate (n - g.length) 0 ++ [m] < g' ++ replicate (n - g'.length) 0 ++ [m'] := by
  induction g generalizing g' n with
  | nil =>
    have hlen : g'.length ≠ 0 := fun hnil => by
      rw [eq_nil_of_length_eq_zero hnil] at h
      exact lt_irrefl _ h
    have hsize : (g' ++ replicate (n - g'.length) 0).length = n := by
      rw [length_append, length_replicate]
      omega
    have hle : replicate n 0 ≤ g' ++ replicate (n - g'.length) 0 :=
      replicate_le_of_forall_ge (fun a => Fin.zero_le a) hsize
    have hm : [m] < [m'] := cons_lt_cons_iff.2 (.inl (hmarker (Nat.pos_of_ne_zero hlen)))
    rw [nil_append, length_nil, Nat.sub_zero, append_lt_append_iff (by rw [hsize, length_replicate])]
    rcases hle.lt_or_eq with hlt | heq
    · exact .inl hlt
    · exact .inr ⟨heq, hm⟩
  | cons a g ih =>
    cases g' with
    | nil => exact absurd h (not_lt_nil _)
    | cons b g' =>
      obtain ⟨n, rfl⟩ : ∃ k, n = k + 1 := ⟨n - 1, by simp only [length_cons] at hg; omega⟩
      simp only [length_cons, Nat.add_le_add_iff_right, Nat.add_lt_add_iff_right,
        Nat.add_sub_add_right, cons_append, cons_lt_cons_iff] at hg hg' h hmarker ⊢
      rcases h with hab | ⟨hab, hrest⟩
      · exact .inl hab
      · exact .inr ⟨hab, ih hg hg' hrest hmarker⟩

theorem encodeGroup_lt (hg : g.length ≤ 8) (hg' : g'.length ≤ 8) (h : g < g') :
    encodeGroup g < encodeGroup g' :=
  pad_lt_pad hg hg' h fun hlen => marker_lt hlen hg'

/-! ## The encoding -/

variable {s : Bytes}

theorem encodeBytes_of_lt (h : s.length < 8) : encodeBytes s = encodeGroup s := by
  rw [encodeBytes, encGroupSize, Nat.div_eq_of_lt h]
  rfl

theorem encodeBytes_of_le (h : 8 ≤ s.length) :
    encodeBytes s = encodeGroup (s.take 8) ++ encodeBytes (s.drop 8) := by
  have hdiv : s.length / 8 = (s.drop 8).length / 8 + 1 := by
    rw [length_drop]
    omega
  rw [encodeBytes, encodeBytes, encGroupSize, hdiv]
  rfl

variable {a b : Bytes}

theorem encodeBytes_append_lt (h : a < b) (x y : Bytes) :
    encodeBytes a ++ x < encodeBytes b ++ y := by
  -- along the groups of `a`: the first group in which the keys differ decides
  induction hlen : a.length using Nat.strong_induction_on generalizing a b with
  | _ n ih =>
    have hfront : ∀ s : Bytes, ∃ rest, encodeBytes s = encodeGroup (s.take 8) ++ rest := by
      intro s
      rcases lt_or_ge s.length 8 with hs | hs
      · exact ⟨[], by rw [encodeBytes_of_lt hs, take_of_length_le hs.le, append_nil]⟩
      · exact ⟨_, encodeBytes_of_le hs⟩
    have htake : ∀ s : Bytes, (s.take 8).length ≤ 8 := fun s => length_take_le 8 s
    rcases (lt_iff_take_drop 8).1 h with hlt | ⟨heq, hdrop⟩
    · obtain ⟨ra, ha⟩ := hfront a
      obtain ⟨rb, hb⟩ := hfront b
      rw [ha, hb, append_assoc, append_assoc, append_lt_append_iff
        (by rw [length_encodeGroup (htake a), length_encodeGroup (htake b)])]
      exact .inl (encodeGroup_lt (htake a) (htake b) hlt)
    · have hlength := congrArg length heq
      rw [length_take, length_take] at hlength
      have hb : 8 ≤ b.length := by
        by_contra hb
        rw [drop_of_length_le (by omega : b.length ≤ 8)] at hdrop
        exact not_lt_nil _ hdrop
      have ha : 8 ≤ a.length := by omega
      rw [encodeBytes_of_le ha, encodeBytes_of_le hb, heq, append_assoc, append_assoc]
      refine append_left_lt (ih _ ?_ hdrop rfl)
      rw [length_drop]
      omega

variable {x y : Bytes}

theorem encodeBytes_append_lt_iff :
    encodeBytes a ++ x < encodeBytes b ++ y ↔ a < b ∨ a = b ∧ x < y := by
  constructor
  · intro h
    rcases lt_trichotomy a b with hlt | rfl | hgt
    · exact .inl hlt
    · exact .inr ⟨rfl, ((append_lt_append_iff rfl).1 h).elim (fun h => absurd h (lt_irrefl _)) And.right⟩
    · exact absurd h (encodeBytes_append_lt hgt y x).not_gt
  · rintro (hlt | ⟨rfl, hxy⟩)
    · exact encodeBytes_append_lt hlt x y
    · exact append_left_lt hxy

theorem encodeBytes_append_inj (h : encodeBytes a ++ x = encodeBytes b ++ y) :
    a = b ∧ x = y := by
  rcases lt_trichotomy a b with hlt | rfl | hgt
  · exact absurd h (encodeBytes_append_lt hlt x y).ne
  · exact ⟨rfl, append_cancel_left h⟩
  · exact absurd h (encodeBytes_append_lt hgt y x).ne'

/-! ## The decoder -/

theorem readUInt64_shiftRight_eq_zero_iff (s : Bytes) (k : Nat) :
    readUInt64 s >>> (k * 8) = 0 ↔ s.drop k = replicate (s.length - k) 0 := by
  induction s generalizing k with
  | nil => simp [readUInt64]
  | cons b s ih =>
    have hcons : readUInt64 (b :: s) = b.val + 256 * readUInt64 s := rfl
    cases k with
    | zero =>
      have hrest := ih 0
      simp only [Nat.zero_mul, Nat.shiftRight_zero, drop_zero, Nat.sub_zero, length_cons,
        replicate_succ, cons.injEq] at hrest ⊢
      rw [← hrest, hcons, Fin.ext_iff]
      omega
    | succ k =>
      have hshift : readUInt64 (b :: s) >>> ((k + 1) * 8) = readUInt64 s >>> (k * 8) := by
        rw [hcons, show (k + 1) * 8 = 8 + k * 8 by omega, Nat.shiftRight_add, Nat.shiftRight_eq_div_pow _ 8]
        congr 1
        omega
      rw [hshift, ih k, drop_succ_cons, length_cons, Nat.add_sub_add_right]

/-- A chunk with a pad size of at most eight is the encoding of its used bytes if the rest of its
group is zero. -/
theorem encodeGroup_of_padding (hgroup : group.length = 8) (marker : Byte) (hpad : (encMarker - marker).val ≤ 8)
    (hzero : group.drop (8 - (encMarker - marker).val) = replicate (encMarker - marker).val 0) :
    encodeGroup (group.take (8 - (encMarker - marker).val)) = group ++ [marker] := by
  set padSize := (encMarker - marker).val with hsize
  have hlen : (group.take (8 - padSize)).length = 8 - padSize := by
    rw [length_take]
    omega
  have hback : 8 - (8 - padSize) = padSize := by omega
  have hmarker : encMarker - Fin.ofNat 256 padSize = marker := by
    have hcast : Fin.ofNat 256 padSize = encMarker - marker := Fin.ofNat_val_eq_self _
    rw [hcast, sub_sub_cancel]
  simp only [encodeGroup, encGroupSize, hlen, hback]
  rw [hmarker, ← hzero, take_append_drop]

theorem padSizeOf_encodeGroup_append (hg : g.length ≤ 8) (x : Bytes) :
    padSizeOf (encodeGroup g ++ x) = 8 - g.length := by
  have hlen : (g ++ replicate (8 - g.length) 0).length = 8 := by
    rw [length_append, length_replicate]
    omega
  have hget : (encodeGroup g ++ x).getD 8 0 = encMarker - Fin.ofNat 256 (8 - g.length) := by
    simp only [encodeGroup, encGroupSize, append_assoc]
    rw [← append_assoc, getD_eq_getElem?_getD, getElem?_append_right hlen.le, hlen]
    rfl
  rw [padSizeOf, encGroupSize, hget, sub_sub_cancel, Fin.val_ofNat]
  omega

theorem chunk_split (rest : Bytes) (h : 9 ≤ rest.length) :
    rest = (rest.take 8 ++ [rest.getD 8 0]) ++ rest.drop 9 := by
  have hget : rest[8]? = some (rest.getD 8 0) := by
    rw [getD_eq_getElem?_getD, getElem?_eq_getElem (by omega)]
    rfl
  have hnext : rest.take 9 = rest.take 8 ++ [rest.getD 8 0] := by
    rw [take_add_one, hget]
    rfl
  rw [← hnext, take_append_drop]

/-- One turn of the decoder's loop, with the sizes of a group and of a chunk in numbers. -/
theorem decodeTiKVKeyFrom_succ (res : Bytes) (offset chunks : Nat) (rest : Bytes) :
    decodeTiKVKeyFrom res offset (chunks + 1) rest = if padSizeOf rest = 0 then
        decodeTiKVKeyFrom (res ++ rest.take 8) (offset + 9) chunks (rest.drop 9)
      else if padSizeOf rest > 8 then .error .keyPadding
      else if !checkKeyPaddingValid (rest.take 8) (padSizeOf rest) then .error .keyPaddingWrongEnd
      else .ok (res ++ (rest.take 8).take (8 - padSizeOf rest), offset + 9) := rfl

variable {chunks : Nat}

theorem encoding_of_decodeTiKVKeyFrom_eq_ok {res rest r : Bytes} {offset : Nat}
    (hchunks : chunks * 9 ≤ rest.length) (h : decodeTiKVKeyFrom res offset chunks rest = .ok (r, n)) :
    ∃ a suffix, rest = encodeBytes a ++ suffix ∧ r = res ++ a ∧ n = offset + (encodeBytes a).length := by
  induction chunks generalizing res rest offset with
  | zero => cases h
  | succ chunks ih =>
    have hsplit := chunk_split rest (by omega)
    have hgroup : (rest.take 8).length = 8 := by
      rw [length_take]
      omega
    rw [decodeTiKVKeyFrom_succ] at h
    split_ifs at h with hzero hlarge hvalid
    · -- a whole group
      have hmarker : (encMarker - rest.getD 8 0).val = 0 := hzero
      have hchunk := encodeGroup_of_padding hgroup (rest.getD 8 0) (by omega)
        (by rw [hmarker, drop_of_length_le (by omega)]; rfl)
      rw [hmarker, Nat.sub_zero, take_of_length_le hgroup.le] at hchunk
      obtain ⟨a, suffix, hrest, hr, hn⟩ := ih (by rw [length_drop]; omega) h
      have henc : encodeBytes (rest.take 8 ++ a) = encodeGroup (rest.take 8) ++ encodeBytes a := by
        rw [encodeBytes_of_le (by rw [length_append]; omega), take_left' hgroup, drop_left' hgroup]
      refine ⟨rest.take 8 ++ a, suffix, ?_, ?_, ?_⟩
      · rw [henc, hchunk, append_assoc _ _ suffix, ← hrest]
        exact hsplit
      · rw [hr, append_assoc]
      · rw [hn, henc, length_append, length_encodeGroup hgroup.le, Nat.add_assoc]
    · -- the last group
      have hpad : padSizeOf rest ≤ 8 := by omega
      have hdrop : (rest.take 8).drop (8 - padSizeOf rest) = replicate (padSizeOf rest) 0 := by
        have hiff := readUInt64_shiftRight_eq_zero_iff (rest.take 8) (8 - padSizeOf rest)
        have hcheck : checkKeyPaddingValid (rest.take 8) (padSizeOf rest) = true := by simpa using hvalid
        rw [hiff.1 (of_decide_eq_true hcheck), hgroup]
        congr 1
        omega
      have hchunk := encodeGroup_of_padding hgroup (rest.getD 8 0) hpad hdrop
      have hlen : ((rest.take 8).take (8 - padSizeOf rest)).length < 8 := by
        rw [length_take]
        omega
      cases h
      refine ⟨(rest.take 8).take (8 - padSizeOf rest), rest.drop 9, ?_, rfl, ?_⟩
      · rw [encodeBytes_of_lt hlen]
        exact hchunk ▸ hsplit
      · rw [encodeBytes_of_lt hlen, length_encodeGroup hlen.le]

theorem decodeTiKVKeyFrom_encodeBytes_append (a suffix res : Bytes) (offset : Nat)
    (hchunks : chunks = (encodeBytes a ++ suffix).length / 9) :
    decodeTiKVKeyFrom res offset chunks (encodeBytes a ++ suffix)
      = .ok (res ++ a, offset + (encodeBytes a).length) := by
  induction hlen : a.length using Nat.strong_induction_on generalizing a res offset chunks with
  | _ n ih =>
    rcases lt_or_ge a.length 8 with ha | ha
    · rw [encodeBytes_of_lt ha] at hchunks ⊢
      have hnine := length_encodeGroup ha.le
      obtain ⟨chunks, rfl⟩ : ∃ k, chunks = k + 1 := ⟨chunks - 1, by rw [length_append] at hchunks; omega⟩
      have hpad := padSizeOf_encodeGroup_append ha.le suffix
      have htake : (encodeGroup a ++ suffix).take 8 = a ++ replicate (8 - a.length) 0 := by
        have hfront : (a ++ replicate (8 - a.length) (0 : Byte)).length = 8 := by
          rw [length_append, length_replicate]
          omega
        simp only [encodeGroup, encGroupSize]
        rw [append_assoc, take_left' hfront]
      have hback : 8 - (8 - a.length) = a.length := by omega
      have hvalid : checkKeyPaddingValid (a ++ replicate (8 - a.length) 0) (8 - a.length) = true := by
        refine decide_eq_true ((readUInt64_shiftRight_eq_zero_iff _ _).2 ?_)
        rw [encGroupSize, hback, drop_left, length_append, length_replicate]
        congr 1
        omega
      rw [decodeTiKVKeyFrom_succ, hpad, htake, hvalid, hback, if_neg (by omega), if_neg (by omega),
        take_left, hnine]
      rfl
    · rw [encodeBytes_of_le ha] at hchunks ⊢
      have hgroup : (a.take 8).length = 8 := by
        rw [length_take]
        omega
      have hnine := length_encodeGroup hgroup.le
      obtain ⟨chunks, rfl⟩ : ∃ k, chunks = k + 1 :=
        ⟨chunks - 1, by simp only [length_append] at hchunks; omega⟩
      rw [append_assoc] at hchunks ⊢
      have hpad := padSizeOf_encodeGroup_append hgroup.le (encodeBytes (a.drop 8) ++ suffix)
      have htake : (encodeGroup (a.take 8) ++ (encodeBytes (a.drop 8) ++ suffix)).take 8 = a.take 8 := by
        simp only [encodeGroup, encGroupSize, hgroup, append_assoc]
        exact take_left' hgroup
      have hchunks' : chunks = (encodeBytes (a.drop 8) ++ suffix).length / 9 := by
        rw [length_append, hnine] at hchunks
        omega
      rw [decodeTiKVKeyFrom_succ, hpad, hgroup, htake, if_pos rfl, drop_left' hnine,
        ih _ (by rw [length_drop]; omega) _ _ _ hchunks' rfl,
        append_assoc, take_append_drop, length_append, hnine, Nat.add_assoc]

/-- The decoder accepts a key iff it starts with an encoding, and returns what was encoded and the length of
the encoding. -/
theorem decodeTiKVKeyFull_eq_ok_iff {key : Bytes} :
    decodeTiKVKeyFull key = .ok (a, n) ↔ ∃ suffix, key = encodeBytes a ++ suffix ∧ n = (encodeBytes a).length := by
  constructor
  · intro h
    obtain ⟨b, suffix, hkey, hb, hn⟩ :=
      encoding_of_decodeTiKVKeyFrom_eq_ok (Nat.div_mul_le_self key.length 9) h
    obtain rfl : a = b := hb
    exact ⟨suffix, hkey, by rw [hn, Nat.zero_add]⟩
  · rintro ⟨suffix, rfl, rfl⟩
    have hfull := decodeTiKVKeyFrom_encodeBytes_append a suffix [] 0 rfl
    rw [nil_append, Nat.zero_add] at hfull
    exact hfull

example : decodeTiKVKeyFull [7, 0, 0, 0, 0, 0, 0, 1, 248] = .error .keyPaddingWrongEnd := by decide

/-! ## Timestamps -/

theorem foldl_encodeUInt64 (h : n < 2 ^ 64) :
    (encodeUInt64 n).foldl (fun m d => m * 256 + d.val) 0 = n := by
  simp only [encodeUInt64, map_cons, map_nil, foldl, Fin.val_ofNat]
  omega

theorem encodeUInt64_lt_iff (hm : m < 2 ^ 64) (hn : n < 2 ^ 64) :
    encodeUInt64 m < encodeUInt64 n ↔ m < n := by
  have hfold := foldl_digits_lt_iff (a := encodeUInt64 m) (b := encodeUInt64 n) rfl 0 0
  rw [foldl_encodeUInt64 hm, foldl_encodeUInt64 hn] at hfold
  rw [hfold]
  simp

theorem encodeUInt64Desc_lt_iff {t u : KeyTs} : encodeUInt64Desc t < encodeUInt64Desc u ↔ u < t := by
  have ht := t.toNat_lt
  rw [encodeUInt64Desc, encodeUInt64Desc, encodeUInt64_lt_iff (~~~t).toNat_lt (~~~u).toNat_lt,
    UInt64.toNat_not, UInt64.toNat_not, UInt64.lt_iff_toNat_lt]
  simp only [UInt64.size]
  omega

theorem encodeUInt64Desc_injective : Function.Injective encodeUInt64Desc := by
  intro t u h
  refine UInt64.le_antisymm (UInt64.not_lt.1 fun hlt => ?_) (UInt64.not_lt.1 fun hlt => ?_)
  · exact (encodeUInt64Desc_lt_iff.2 hlt).ne h
  · exact (encodeUInt64Desc_lt_iff.2 hlt).ne h.symm

/-! ## The codec -/

/-- Decoding inverts encoding in front of any suffix and accepts nothing else; no encoding is the front of
another; keys with a timestamp are ordered by the user's key and then by the timestamp, the latest first. -/
theorem key_codec_orders :
    (∀ key a n, decodeTiKVKeyFull key = .ok (a, n) ↔
      ∃ suffix, key = encodeBytes a ++ suffix ∧ n = (encodeBytes a).length) ∧
    (∀ a b, encodeBytes a <+: encodeBytes b ↔ a = b) ∧
    (∀ a b t u, appendTs (encodeBytes a) t < appendTs (encodeBytes b) u ↔ a < b ∨ a = b ∧ u < t) ∧
    (∀ a b t u, appendTs (encodeBytes a) t = appendTs (encodeBytes b) u ↔ a = b ∧ t = u) := by
  refine ⟨fun key a n => decodeTiKVKeyFull_eq_ok_iff, fun a b => ⟨?_, ?_⟩, fun a b t u => ?_,
    fun a b t u => ⟨fun h => ?_, ?_⟩⟩
  · rintro ⟨suffix, h⟩
    exact (encodeBytes_append_inj (y := []) (by rw [h, append_nil])).1
  · rintro rfl
    exact prefix_rfl
  · rw [appendTs, appendTs, encodeBytes_append_lt_iff, encodeUInt64Desc_lt_iff]
  · obtain ⟨hkey, hts⟩ := encodeBytes_append_inj h
    exact ⟨hkey, encodeUInt64Desc_injective hts⟩
  · rintro ⟨rfl, rfl⟩
    rfl

end TiFlash.Transaction.RecordKVFormat
