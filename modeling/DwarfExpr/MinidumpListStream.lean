import DwarfExpr.MinidumpStream

/-!
# List streams

A list stream is a 32-bit count, four bytes of padding or none, and the items one after
the other. `ReadStream` accepts exactly the directory entries that announce such a
stream within the file, and delivers its items.
-/

namespace DwarfExpr

open InputStream (slice openAt)

/-- Items inside the file are all read: each gets its bytes, and the stream is left
behind the last one. Induction on the items. -/
theorem readItems_of_le {size itemSize : ℕ} {image : List UInt8} (hsize : itemSize ≤ size)
    (items : List (RawObject size)) {pos : ℕ}
    (hfits : pos + items.length * itemSize ≤ image.length) :
    ∃ v, readItems itemSize items (openAt image pos) =
        (true, v, openAt image (pos + items.length * itemSize)) ∧
      v.length = items.length ∧
      ∀ i (hi : i < v.length),
        v[i].bytes.take itemSize = slice image (pos + i * itemSize) itemSize := by
  induction items generalizing pos with
  | nil => exact ⟨[], by simp [readItems], rfl, fun i hi => absurd hi (Nat.not_lt_zero i)⟩
  | cons item rest ih =>
    simp only [List.length_cons, Nat.add_mul, Nat.one_mul] at hfits
    have hread := @readBytes_of_le image pos itemSize (by omega)
    have hlength := @InputStream.length_slice image pos itemSize (by omega)
    obtain ⟨v, hv, hvlength, hvitems⟩ := @ih (pos + itemSize) (by omega)
    have hend : pos + itemSize + rest.length * itemSize =
        pos + (item :: rest).length * itemSize := by
      simp only [List.length_cons, Nat.add_mul, Nat.one_mul]
      omega
    refine ⟨item.store 0 (slice image pos itemSize) :: v, ?_, by simp [hvlength], ?_⟩
    · simp only [readItems, hread, hv, hend]
    · intro i hi
      cases i with
      | zero =>
        have htake := @RawObject.take_store_zero _ item (slice image pos itemSize) (by omega)
        rw [hlength] at htake
        simpa using htake
      | succ i =>
        have hitem := hvitems i (by simpa using hi)
        have hpos : pos + itemSize + i * itemSize = pos + (i + 1) * itemSize := by
          rw [Nat.add_mul, Nat.one_mul]
          omega
        rw [hpos] at hitem
        simpa using hitem

/-- Items that reach beyond the file are not all read. -/
theorem readItems_of_not_le {size itemSize : ℕ} {image : List UInt8} (hpos : 0 < itemSize)
    (items : List (RawObject size)) {pos : ℕ} (hne : items ≠ [])
    (hfits : ¬pos + items.length * itemSize ≤ image.length) :
    (readItems itemSize items (openAt image pos)).1 = false := by
  induction items generalizing pos with
  | nil => exact absurd rfl hne
  | cons item rest ih =>
    simp only [List.length_cons, Nat.add_mul, Nat.one_mul] at hfits
    by_cases hitem : pos + itemSize ≤ image.length
    · have hread := @readBytes_of_le image pos itemSize hitem
      have hrest : rest ≠ [] := by
        rintro rfl
        simp only [List.length_nil, Nat.zero_mul] at hfits
        omega
      have hfail := @ih (pos + itemSize) hrest (by omega)
      simp only [readItems, hread, hfail]
    · obtain ⟨s', hread, -⟩ := @readBytes_of_not_le image pos itemSize hpos hitem
      simp only [readItems, hread]

/-- A directory entry announces a list stream of `n` items, and the file has the
`h` bytes in front of the items. -/
structure ListHeaderAt (image : List UInt8) (directory : MDRawDirectory)
    (itemSize maxItemSize n h : ℕ) : Prop where
  count_le : n ≤ maxItemSize
  total_le : n * itemSize ≤ 2 ^ 32 - 1
  count_eq : LittleEndian.decode (slice image directory.location.rva 4) = n
  dataSize_eq : (h = 4 ∧ directory.location.dataSize = 4 + n * itemSize) ∨
    (h = 8 ∧ directory.location.dataSize = 4 + 4 + n * itemSize)
  headerInFile : directory.location.rva + h ≤ image.length

/-- An announced list stream of which the file has all bytes. -/
structure ListStreamAt (image : List UInt8) (directory : MDRawDirectory)
    (itemSize maxItemSize n h : ℕ) : Prop
    extends ListHeaderAt image directory itemSize maxItemSize n h where
  inFile : directory.location.rva + directory.location.dataSize ≤ image.length

/-- The bytes of an announced list stream end with its items. -/
theorem ListHeaderAt.end_eq {image : List UInt8} {directory : MDRawDirectory}
    {itemSize maxItemSize n h : ℕ} (hat : ListHeaderAt image directory itemSize maxItemSize n h) :
    directory.location.dataSize = h + n * itemSize := by
  have hdata := hat.dataSize_eq
  omega

/-- Behind an announced header `ReadStream` turns to the items. -/
theorem readStream_of_listHeaderAt {size itemSize maxItemSize n h : ℕ} {s : InputStream}
    {directory : MDRawDirectory} (hs : s.failbit = false) (hpos : 0 < itemSize)
    (hat : ListHeaderAt s.image directory itemSize maxItemSize n h) :
    readStream directory ([] : List (RawObject size)) itemSize maxItemSize s =
      if n > 0 then
        readItems itemSize (List.replicate n (RawObject.zero size))
          (openAt s.image (directory.location.rva + h))
      else (true, [], openAt s.image (directory.location.rva + h)) := by
  obtain ⟨hcount, htotal, hn, hdata, hfile⟩ := hat
  have hseek := seekTo_of_unfailed hs directory.location.rva
  have hread := @readBytes_of_le s.image directory.location.rva 4 (by omega)
  have hguard : ¬n > (2 ^ 32 - 1) / itemSize := by
    rw [gt_iff_lt, Nat.not_lt, Nat.le_div_iff_mul_le hpos]
    exact htotal
  have hpad : readPadding directory.location.dataSize n itemSize
      (openAt s.image (directory.location.rva + 4)) =
        (true, openAt s.image (directory.location.rva + h)) := by
    unfold readPadding
    rcases hdata with ⟨rfl, hdata⟩ | ⟨rfl, hdata⟩
    · rw [if_pos hdata]
    · have hread4 := @readBytes_of_le s.image (directory.location.rva + 4) 4 (by omega)
      rw [if_neg (by omega), if_pos hdata]
      simp only [hread4]
  have hshort : ¬directory.location.dataSize < 4 := by omega
  unfold readStream
  simp only [List.length_nil, ne_eq, not_true_eq_false, if_false, hseek, if_neg hshort, hread, hn,
    if_neg hguard, hpad, if_neg (Nat.not_lt.mpr hcount)]

/-- The size check succeeds on the two layouts only, and leaves the stream at the first
item. -/
theorem readPadding_of_true {image : List UInt8} {pos dataSize n itemSize : ℕ}
    {s' : InputStream}
    (hok : readPadding dataSize n itemSize (openAt image (pos + 4)) = (true, s')) :
    ∃ h, ((h = 4 ∧ dataSize = 4 + n * itemSize) ∨ (h = 8 ∧ dataSize = 4 + 4 + n * itemSize)) ∧
      (h = 4 ∨ pos + h ≤ image.length) := by
  unfold readPadding at hok
  split at hok
  case isTrue hplain => exact ⟨4, .inl ⟨rfl, hplain⟩, .inl rfl⟩
  case isFalse hplain =>
    split at hok
    case isFalse hpadded => simp at hok
    case isTrue hpadded =>
      by_cases hfits : pos + 4 + 4 ≤ image.length
      · exact ⟨8, .inr ⟨rfl, hpadded⟩, .inr hfits⟩
      · obtain ⟨t, hread, -⟩ := readBytes_of_not_le (by decide) hfits
        rw [hread] at hok
        simp at hok

/-- Without an announced header `ReadStream` fails and leaves the vector empty. -/
theorem readStream_of_not_listHeaderAt {size itemSize maxItemSize : ℕ} {s : InputStream}
    {directory : MDRawDirectory} (hs : s.failbit = false) (hpos : 0 < itemSize)
    (hnone : ¬∃ n h, ListHeaderAt s.image directory itemSize maxItemSize n h) :
    ∃ s', readStream directory ([] : List (RawObject size)) itemSize maxItemSize s =
      (false, [], s') := by
  unfold readStream
  simp only [List.length_nil, ne_eq, not_true_eq_false, if_false,
    seekTo_of_unfailed hs directory.location.rva]
  split
  case isTrue => exact ⟨_, rfl⟩
  case isFalse hlong =>
    by_cases hword : directory.location.rva + 4 ≤ s.image.length
    · rw [readBytes_of_le hword]
      simp only
      generalize hn : LittleEndian.decode (slice s.image directory.location.rva 4) = n
      split
      case isTrue => exact ⟨_, rfl⟩
      case isFalse hguard =>
        have htotal : n * itemSize ≤ 2 ^ 32 - 1 := by
          rwa [gt_iff_lt, Nat.not_lt, Nat.le_div_iff_mul_le hpos] at hguard
        cases hpad : readPadding directory.location.dataSize n itemSize
            (openAt s.image (directory.location.rva + 4)) with
        | mk ok s' =>
          cases ok with
          | false => exact ⟨_, rfl⟩
          | true =>
            obtain ⟨h, hlayout, hheader⟩ := readPadding_of_true hpad
            simp only
            split
            case isTrue => exact ⟨_, rfl⟩
            case isFalse hcount =>
              exact absurd ⟨n, h, Nat.not_lt.mp hcount, htotal, hn, hlayout, by omega⟩ hnone
    · obtain ⟨s', hread, -⟩ := readBytes_of_not_le (by decide) hword
      rw [hread]
      exact ⟨_, rfl⟩

/-- When `ReadStream` refuses a stream without a failed read, the vector stays empty. -/
theorem readStream_refused {size itemSize maxItemSize : ℕ} {s s' : InputStream}
    {directory : MDRawDirectory} {v : List (RawObject size)} (hpos : 0 < itemSize)
    (hrun : readStream directory [] itemSize maxItemSize s = (false, v, s'))
    (hclear : s'.failbit = false) : v = [] := by
  have hlater := readStream_later directory ([] : List (RawObject size)) itemSize maxItemSize s
  rw [hrun] at hlater
  have hs := hlater.unfailed hclear
  by_cases hheader : ∃ n h, ListHeaderAt s.image directory itemSize maxItemSize n h
  · obtain ⟨n, h, hat⟩ := hheader
    rw [readStream_of_listHeaderAt hs hpos hat] at hrun
    split at hrun
    · have hfail := readItems_failbit (congrArg Prod.fst hrun)
      rw [hrun, hclear] at hfail
      cases hfail
    · cases hrun
  · obtain ⟨t, hnone⟩ := @readStream_of_not_listHeaderAt size _ _ _ _ hs hpos hheader
    rw [hnone] at hrun
    cases hrun
    rfl

/-- A list stream that the file has is accepted and its items are delivered. -/
theorem readStream_of_listStreamAt {size itemSize maxItemSize n h : ℕ} {s : InputStream}
    {directory : MDRawDirectory} (hs : s.failbit = false) (hsize : itemSize ≤ size)
    (hpos : 0 < itemSize) (hat : ListStreamAt s.image directory itemSize maxItemSize n h) :
    ∃ (v : List (RawObject size)) (s' : InputStream),
      readStream directory [] itemSize maxItemSize s = (true, v, s') ∧ v.length = n ∧
        ∀ i (hi : i < v.length), v[i].bytes.take itemSize =
          slice s.image (directory.location.rva + h + i * itemSize) itemSize := by
  have hend := hat.end_eq
  have hfile := hat.inFile
  have hzeros : (List.replicate n (RawObject.zero size)).length = n := List.length_replicate
  rw [readStream_of_listHeaderAt hs hpos hat.toListHeaderAt]
  by_cases hzero : n > 0
  · obtain ⟨v, hitems, hlength, hslices⟩ := @readItems_of_le _ _ s.image hsize
      (List.replicate n (RawObject.zero size)) (directory.location.rva + h)
      (by rw [hzeros]; omega)
    rw [if_pos hzero, hitems]
    exact ⟨v, _, rfl, by rw [hlength, hzeros], hslices⟩
  · rw [if_neg hzero]
    exact ⟨[], _, rfl, by simp only [List.length_nil]; omega,
      fun i hi => absurd hi (Nat.not_lt_zero i)⟩

/-- Only list streams that the file has are accepted. -/
theorem listStreamAt_of_readStream {size itemSize maxItemSize : ℕ} {s : InputStream}
    {directory : MDRawDirectory} (hs : s.failbit = false) (hpos : 0 < itemSize)
    (hok : (readStream directory ([] : List (RawObject size)) itemSize maxItemSize s).1 = true) :
    ∃ n h, ListStreamAt s.image directory itemSize maxItemSize n h := by
  by_cases hheader : ∃ n h, ListHeaderAt s.image directory itemSize maxItemSize n h
  · obtain ⟨n, h, hat⟩ := hheader
    have hend := hat.end_eq
    have hfile := hat.headerInFile
    refine ⟨n, h, hat, ?_⟩
    rw [readStream_of_listHeaderAt hs hpos hat] at hok
    by_contra hbeyond
    have hzero : n > 0 := by
      by_contra hzero
      obtain rfl : n = 0 := by omega
      omega
    have hzeros : (List.replicate n (RawObject.zero size)).length = n := List.length_replicate
    have hfail := @readItems_of_not_le size itemSize s.image hpos
      (List.replicate n (RawObject.zero size)) (directory.location.rva + h)
      (by rw [← List.length_pos_iff, hzeros]; exact hzero) (by rw [hzeros]; omega)
    rw [if_pos hzero, hfail] at hok
    cases hok
  · obtain ⟨s', hrun⟩ := @readStream_of_not_listHeaderAt size _ _ _ _ hs hpos hheader
    rw [hrun] at hok
    cases hok

/-- The bytes of a list stream with the given padding. -/
def encodeListStream (padding : List UInt8) (items : List (List UInt8)) : List UInt8 :=
  LittleEndian.encode 4 items.length ++ padding ++ items.flatten

/-- The encoding of a list is announced by an entry that points at it. Its count cannot
overflow, because the entry has only 32 bits for the size. -/
theorem listStreamAt_of_encode {before padding after : List UInt8} {items : List (List UInt8)}
    {directory : MDRawDirectory} {itemSize maxItemSize : ℕ} (hpos : 0 < itemSize)
    (hcount : items.length ≤ maxItemSize) (hwidth : ∀ item ∈ items, item.length = itemSize)
    (hpadding : padding.length = 0 ∨ padding.length = 4)
    (hrva : directory.location.rva = before.length)
    (hdata : directory.location.dataSize = (encodeListStream padding items).length) :
    ListStreamAt (before ++ encodeListStream padding items ++ after) directory itemSize
      maxItemSize items.length (4 + padding.length) := by
  have hflatten := InputStream.length_flatten_of_width hwidth
  have hlength : (encodeListStream padding items).length =
      4 + padding.length + items.length * itemSize := by
    simp only [encodeListStream, List.length_append, LittleEndian.length_encode, hflatten]
  have hlt : directory.location.dataSize < 256 ^ 4 := RawObject.word_lt directory 4 4
  have hitems : items.length ≤ items.length * itemSize := Nat.le_mul_of_pos_right _ hpos
  have hword : slice (before ++ encodeListStream padding items ++ after) before.length 4 =
      LittleEndian.encode 4 items.length := by
    have hslice := InputStream.slice_append before (LittleEndian.encode 4 items.length)
      (padding ++ items.flatten ++ after)
    rw [LittleEndian.length_encode] at hslice
    simpa [encodeListStream] using hslice
  refine ⟨⟨hcount, by omega, ?_, by omega, ?_⟩, ?_⟩
  · rw [hrva, hword, LittleEndian.decode_encode (by omega)]
  · rw [hrva]
    simp only [List.length_append]
    omega
  · rw [hrva, hdata]
    simp only [List.length_append]
    omega

/-- `ReadStream` on a stream without error bits accepts exactly the announced list
streams, delivers exactly their items, and so reads back every encoded list. -/
theorem readStream_accepts_iff {size itemSize maxItemSize : ℕ} {s : InputStream}
    {directory : MDRawDirectory} (hgood : s.good = true) (hpos : 0 < itemSize)
    (hsize : itemSize ≤ size) :
    ((readStream directory ([] : List (RawObject size)) itemSize maxItemSize s).1 = true ↔
      ∃ n h, ListStreamAt s.image directory itemSize maxItemSize n h) ∧
    (∀ (v : List (RawObject size)) (s' : InputStream),
      readStream directory [] itemSize maxItemSize s = (true, v, s') →
      ∀ n h, ListStreamAt s.image directory itemSize maxItemSize n h →
        v.length = n ∧ ∀ i (hi : i < v.length), v[i].bytes.take itemSize =
          slice s.image (directory.location.rva + h + i * itemSize) itemSize) ∧
    ∀ (before padding after : List UInt8) (items : List (List UInt8)),
      s.image = before ++ encodeListStream padding items ++ after →
      items.length ≤ maxItemSize → (∀ item ∈ items, item.length = itemSize) →
      padding.length = 0 ∨ padding.length = 4 → directory.location.rva = before.length →
      directory.location.dataSize = (encodeListStream padding items).length →
      ∃ (v : List (RawObject size)) (s' : InputStream),
        readStream directory [] itemSize maxItemSize s = (true, v, s') ∧
          v.map (fun item => item.bytes.take itemSize) = items := by
  have hs : s.failbit = false := by
    simp only [InputStream.good, Bool.and_eq_true, Bool.not_eq_true'] at hgood
    exact hgood.2
  refine ⟨⟨listStreamAt_of_readStream hs hpos, ?_⟩, ?_, ?_⟩
  · rintro ⟨n, h, hat⟩
    obtain ⟨v, s', hrun, -⟩ := @readStream_of_listStreamAt size _ _ _ _ _ _ hs hsize hpos hat
    rw [hrun]
  · intro v s' hrun n h hat
    obtain ⟨v', s'', hrun', hitems⟩ :=
      @readStream_of_listStreamAt size _ _ _ _ _ _ hs hsize hpos hat
    rw [hrun] at hrun'
    obtain ⟨rfl, -⟩ : v = v' ∧ s' = s'' := by simpa using hrun'
    exact hitems
  · intro before padding after items himage hcount hwidth hpadding hrva hdata
    have hat := @listStreamAt_of_encode before padding after items directory itemSize maxItemSize
      hpos hcount hwidth hpadding hrva hdata
    rw [← himage] at hat
    obtain ⟨v, s', hrun, hlength, hitems⟩ :=
      @readStream_of_listStreamAt size _ _ _ _ _ _ hs hsize hpos hat
    refine ⟨v, s', hrun, ?_⟩
    apply List.ext_getElem
    · simpa using hlength
    intro i hi hi'
    have hslice := @InputStream.slice_flatten itemSize
      (before ++ LittleEndian.encode 4 items.length ++ padding) after items hwidth i hi'
    have hstart : (before ++ LittleEndian.encode 4 items.length ++ padding).length =
        directory.location.rva + (4 + padding.length) := by
      simp only [List.length_append, LittleEndian.length_encode, hrva, Nat.add_assoc]
    have hsame : before ++ LittleEndian.encode 4 items.length ++ padding ++ items.flatten ++ after =
        s.image := by
      simp [himage, encodeListStream]
    rw [hstart, hsame] at hslice
    rw [List.getElem_map, hitems i (by simpa using hi), hslice]

/-- A padded list of two items of two bytes, three bytes into a file. -/
def paddedPairFile : List UInt8 :=
  [9, 9, 9] ++ encodeListStream [0, 0, 0, 0] [[1, 2], [3, 4]] ++ [5]

/-- The directory entry of that list. -/
def paddedPairEntry : MDRawDirectory := directoryEntry 0 12 3

theorem readStream_accepts_iff_paddedPair :
    ∃ (v : List (RawObject 2)) (s' : InputStream),
      readStream paddedPairEntry [] 2 10 (openAt paddedPairFile 0) = (true, v, s') ∧
        v.map (fun item => item.bytes.take 2) = [[1, 2], [3, 4]] :=
  (readStream_accepts_iff rfl (by decide) (by decide)).2.2 [9, 9, 9] [0, 0, 0, 0] [5]
    [[1, 2], [3, 4]] rfl (by decide) (by decide) (by decide) (by decide) (by decide)

end DwarfExpr
