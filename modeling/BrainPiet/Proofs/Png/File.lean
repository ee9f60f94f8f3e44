import BrainPiet.Png.Decode
import BrainPiet.Proofs.Png.Bitmap
import BrainPiet.Proofs.Png.Deflate

/-!
# Reading picture files undoes writing them

Filters are undone byte by byte, since a prediction only looks at bytes that are there already. The
chunks of a file are found again by their sizes. So the picture in a file is the one it was written
for.
-/

namespace BrainPiet.Png

section Filter

variable {filter step : Nat} {above above' row : Array UInt8}

/-- Rows that are the same, with zeros behind their ends. -/
def SameRow (above above' : Array UInt8) : Prop := ∀ i : Nat, above[i]?.getD 0 = above'[i]?.getD 0

theorem SameRow.refl (row : Array UInt8) : SameRow row row := fun _ ↦ rfl

private theorem predictAt_congr {row row' : Array UInt8} {i : Nat} (habove : SameRow above above')
    (hrow : ∀ k < i, row[k]? = row'[k]?) (hstep : 1 ≤ step) :
    predictAt filter step above row i = predictAt filter step above' row' i := by
  have hbefore : byteBefore step row i = byteBefore step row' i := by
    rw [byteBefore, byteBefore]
    split
    · rfl
    · rw [hrow (i - step) (by omega)]
  have habove' : byteBefore step above i = byteBefore step above' i := by
    rw [byteBefore, byteBefore, habove]
  rw [predictAt, predictAt, hbefore, habove', habove]

/-- Undoing a filter gives the row again. -/
theorem unfilter_applyFilter (habove : SameRow above above') (hstep : 1 ≤ step) :
    unfilter filter step above' (applyFilter filter step above row).toList = row := by
  -- The bytes that are done are the first of the row.
  have hfold : ∀ n ≤ row.size, ((applyFilter filter step above row).toList.take n).foldl
      (fun done byte ↦ done.push (byte + predictAt filter step above' done done.size)) #[] =
        row.extract 0 n := by
    intro n
    induction n with
    | zero => simp
    | succ n ih =>
      intro hn
      have hlt : n < row.size := hn
      have hget : (applyFilter filter step above row).toList[n]? =
          some (row[n] - predictAt filter step above row n) := by
        rw [Array.getElem?_toList, applyFilter, Array.getElem?_mapIdx,
          Array.getElem?_eq_getElem hlt, Option.map_some]
      have hsize : (row.extract 0 n).size = n := by
        rw [Array.size_extract]
        omega
      have hpredict : predictAt filter step above' (row.extract 0 n) n =
          predictAt filter step above row n := by
        refine (predictAt_congr habove (fun k hk ↦ ?_) hstep).symm
        rw [Array.getElem?_extract_of_lt (by omega), Array.getElem?_eq_getElem (by omega)]
        simp only [Nat.zero_add]
      rw [List.take_add_one, hget, List.foldl_append, ih (by omega), Array.extract_succ_right
        (Nat.succ_pos n) hlt]
      simp only [Option.toList_some, List.foldl_cons, List.foldl_nil, hsize, hpredict,
        UInt8.sub_add_cancel]
  have hlength : (applyFilter filter step above row).toList.length = row.size := by
    rw [Array.length_toList, applyFilter, Array.size_mapIdx]
  have hall := hfold row.size (Nat.le_refl _)
  rw [← hlength, List.take_length, hlength, Array.extract_size] at hall
  exact hall

private theorem applyFilter_zero : applyFilter 0 step above row = row := by
  apply Array.ext_getElem?
  intro i
  rw [applyFilter, Array.getElem?_mapIdx]
  cases row[i]? with
  | none => rfl
  | some byte => exact congrArg some (UInt8.sub_zero byte)

private theorem exists_bestFilter (step : Nat) (above row : Array UInt8) :
    ∃ filter < 256, bestFilter step above row =
      #[UInt8.ofNat filter] ++ applyFilter filter step above row := by
  rw [bestFilter]
  dsimp only
  generalize hbest : List.foldl _ _ _ = best
  -- The best so far is the row as its filter changes it.
  have hfold : best.1 < 256 ∧ best.2.1 = applyFilter best.1 step above row := by
    rw [← hbest]
    refine List.foldlRecOn (motive := fun (best : Nat × Array UInt8 × Nat) ↦
      best.1 < 256 ∧ best.2.1 = applyFilter best.1 step above row) _ _ ?_ ?_
    · exact ⟨show 0 < 256 by decide, applyFilter_zero.symm⟩
    · intro best h tried htried
      obtain ⟨filter, hfilter, rfl⟩ := List.mem_map.1 htried
      dsimp only
      split
      · exact ⟨(show ∀ filter ∈ filters, filter < 256 by decide) filter hfilter, rfl⟩
      · exact h
  exact ⟨best.1, hfold.1, by rw [hfold.2]⟩

end Filter

private theorem toList_loop (bytes : ByteArray) (i : Nat) (done : List UInt8) :
    ByteArray.toList.loop bytes i done = done.reverse ++ bytes.data.toList.drop i := by
  fun_induction ByteArray.toList.loop bytes i done with
  | case1 i done hlt ih =>
    have hget : bytes.get! i = bytes.data.toList[i] := getElem!_pos bytes.data i hlt
    have hdrop := List.drop_eq_getElem_cons (show i < bytes.data.toList.length from hlt)
    rw [ih, List.reverse_cons, List.append_assoc, hdrop, hget]
    rfl
  | case2 i done hge =>
    rw [List.drop_eq_nil_of_le (show bytes.data.toList.length ≤ i from Nat.not_lt.1 hge),
      List.append_nil]

private theorem toList_eq_data (bytes : ByteArray) : bytes.toList = bytes.data.toList := by
  rw [ByteArray.toList, toList_loop]
  rfl

theorem toList_inj {a b : ByteArray} : a.toList = b.toList ↔ a = b := by
  rw [toList_eq_data, toList_eq_data, Array.toList_inj, ByteArray.ext_iff]

private theorem getElem?_append_size (front back : ByteArray) (i : Nat) :
    (front ++ back)[front.size + i]? = back[i]? := by
  show (front ++ back).data[front.size + i]? = back.data[i]?
  rw [ByteArray.data_append, Array.getElem?_append_right (by simp)]
  simp

private theorem getElem?_append_of_lt {front : ByteArray} (back : ByteArray) {i : Nat}
    (h : i < front.size) : (front ++ back)[i]? = front[i]? := by
  show (front ++ back).data[i]? = front.data[i]?
  rw [ByteArray.data_append, Array.getElem?_append_left h]

section Rows

variable {step rowSize : Nat}

private theorem exists_filtered {above above' : Array UInt8} (habove : SameRow above above')
    (hstep : 1 ≤ step) (row : Array UInt8) :
    ∃ filter < 256, ∃ filtered : ByteArray, filtered.size = row.size ∧
      (⟨bestFilter step above row⟩ : ByteArray) = ⟨#[UInt8.ofNat filter]⟩ ++ filtered ∧
      unfilter filter step above' filtered.toList = row := by
  obtain ⟨filter, hfilter, hbest⟩ := exists_bestFilter step above row
  refine ⟨filter, hfilter, ⟨applyFilter filter step above row⟩, Array.size_mapIdx, ?_, ?_⟩
  · rw [hbest]
    apply ByteArray.ext
    rw [ByteArray.data_append]
  · rw [toList_eq_data]
    exact unfilter_applyFilter habove hstep

/-- Undoing the filters of rows gives the rows again. -/
theorem unfilterRows_filterRows (hstep : 1 ≤ step) {rows : List (Array UInt8)}
    (hrows : ∀ row ∈ rows, row.size = rowSize) {above above' : Array UInt8}
    (habove : SameRow above above') (front : ByteArray) :
    unfilterRows (front ++ filterRows step above rows) rowSize step rows.length front.size above' =
      some rows := by
  induction rows generalizing above above' front with
  | nil => rfl
  | cons row rows ih =>
    obtain ⟨filter, hfilter, filtered, hsize, hbest, hunfilter⟩ := exists_filtered habove hstep row
    rw [hrows row List.mem_cons_self] at hsize
    have hlater := ih (fun r hr ↦ hrows r (List.mem_cons_of_mem _ hr)) (.refl row)
      (front ++ ⟨#[UInt8.ofNat filter]⟩ ++ filtered)
    generalize hdata : front ++ filterRows step above (row :: rows) = data
    have hsplit : data = front ++ (⟨#[UInt8.ofNat filter]⟩ ++
        (filtered ++ filterRows step row rows)) := by
      rw [← hdata, filterRows, hbest, ByteArray.append_assoc]
    have hfront : front.size + 1 = (front ++ ⟨#[UInt8.ofNat filter]⟩).size := by
      rw [ByteArray.size_append]
      rfl
    have hget : data[front.size]? = some (UInt8.ofNat filter) := by
      have hin : 0 < (⟨#[UInt8.ofNat filter]⟩ : ByteArray).size := Nat.one_pos
      rw [hsplit, ← Nat.add_zero front.size, getElem?_append_size, getElem?_append_of_lt _ hin]
      rfl
    have hextract : data.extract (front.size + 1) (front.size + 1 + rowSize) = filtered := by
      rw [hsplit, ← ByteArray.append_assoc, extract_middle hfront (by rw [hsize])]
    have hnext : (front ++ ⟨#[UInt8.ofNat filter]⟩ ++ filtered).size =
        front.size + 1 + rowSize := by
      rw [ByteArray.size_append, ← hfront, hsize]
    rw [ByteArray.append_assoc, ByteArray.append_assoc, ← hsplit, hnext] at hlater
    have hroom : ¬ data.size < front.size + 1 + rowSize := by
      rw [hsplit, ← ByteArray.append_assoc, ← ByteArray.append_assoc, ByteArray.size_append, hnext]
      omega
    rw [List.length_cons, unfilterRows, hget]
    simp only [Option.bind_eq_bind, Option.bind_some, if_neg hroom, hextract,
      UInt8.toNat_ofNat_of_lt' hfilter, hunfilter, hlater]
    rfl

end Rows

section Words

private theorem toNat_bytes (n : UInt32) :
    (((n >>> 24).toUInt8.toNat * 256 + (n >>> 16).toUInt8.toNat) * 256 +
      (n >>> 8).toUInt8.toNat) * 256 + n.toUInt8.toNat = n.toNat := by
  have hlt := n.toNat_lt
  simp only [UInt32.toNat_toUInt8, UInt32.toNat_shiftRight, Nat.shiftRight_eq_div_pow,
    UInt32.reduceToNat, Nat.reducePow, Nat.reduceMod]
  omega

private theorem word?_append (front back : ByteArray) (n : UInt32) :
    word? (front ++ (word n ++ back)) front.size = some n.toNat := by
  have hget : ∀ i < 4, (front ++ (word n ++ back))[front.size + i]? = (word n)[i]? := fun i hi ↦ by
    rw [getElem?_append_size, getElem?_append_of_lt back hi]
  have h₀ := hget 0 (by omega)
  rw [Nat.add_zero] at h₀
  simp only [word?, h₀, hget 1 (by omega), hget 2 (by omega), hget 3 (by omega)]
  exact congrArg some (toNat_bytes n)

end Words

section Chunks

private def chunkBytes (found : List (String × ByteArray)) : ByteArray :=
  (found.map fun (name, content) ↦ chunk name content).foldl (· ++ ·) .empty

private theorem foldl_append_eq (parts : List ByteArray) (front : ByteArray) :
    parts.foldl (· ++ ·) front = front ++ parts.foldl (· ++ ·) .empty := by
  induction parts generalizing front with
  | nil => simp
  | cons part parts ih =>
    rw [List.foldl_cons, List.foldl_cons, ih, ih (.empty ++ part), ByteArray.empty_append,
      ByteArray.append_assoc]

private theorem chunkBytes_cons (name : String) (content : ByteArray)
    (found : List (String × ByteArray)) :
    chunkBytes ((name, content) :: found) = chunk name content ++ chunkBytes found := by
  rw [chunkBytes, List.map_cons, List.foldl_cons, foldl_append_eq, ByteArray.empty_append]
  rfl

private theorem size_chunk {name : String} (hname : name.toUTF8.size = 4) (content : ByteArray) :
    (chunk name content).size = 12 + content.size := by
  have hword : ∀ n, (word n).size = 4 := fun n ↦ rfl
  simp only [chunk, ByteArray.size_append, hword, hname]
  omega

-- A chunk is found by its size, and the next one starts behind its checksum.
private theorem chunks_succ {name : String} (hname : name.toUTF8.size = 4) {content : ByteArray}
    (hsize : content.size < 2 ^ 32) (front back : ByteArray) (fuel : Nat) :
    chunks (front ++ (chunk name content ++ back)) (fuel + 1) front.size =
      (name.toUTF8.toList, content) ::
        chunks (front ++ (chunk name content ++ back)) fuel (front ++ chunk name content).size := by
  generalize hcheck : word (crc (name.toUTF8 ++ content)) = check
  generalize hdata : front ++ (chunk name content ++ back) = data
  have hsplit : data = front ++ (word (UInt32.ofNat content.size) ++
      (name.toUTF8 ++ (content ++ (check ++ back)))) := by
    rw [← hdata, chunk, hcheck]
    simp only [ByteArray.append_assoc]
  have hword : word? data front.size = some content.size := by
    rw [hsplit, word?_append, UInt32.toNat_ofNat_of_lt' hsize]
  have hwordSize : (word (UInt32.ofNat content.size)).size = 4 := rfl
  have hcheckSize : check.size = 4 := by rw [← hcheck]; rfl
  have hnameExtract : data.extract (front.size + 4) (front.size + 8) = name.toUTF8 := by
    have hfront : front.size + 4 = (front ++ word (UInt32.ofNat content.size)).size := by
      rw [ByteArray.size_append, hwordSize]
    rw [hsplit, ← ByteArray.append_assoc, extract_middle hfront (by rw [hname])]
  have hcontent : data.extract (front.size + 8) (front.size + 8 + content.size) = content := by
    have hfront : front.size + 8 =
        (front ++ word (UInt32.ofNat content.size) ++ name.toUTF8).size := by
      rw [ByteArray.size_append, ByteArray.size_append, hwordSize, hname]
    rw [hsplit, ← ByteArray.append_assoc, ← ByteArray.append_assoc, extract_middle hfront rfl]
  have hroom : ¬ data.size < front.size + 12 + content.size := by
    rw [hsplit]
    simp only [ByteArray.size_append, hwordSize, hname, hcheckSize]
    omega
  rw [chunks, hword, ByteArray.size_append, size_chunk hname, ← Nat.add_assoc]
  simp only [if_neg hroom, hnameExtract, hcontent]

private theorem chunks_chunkBytes {found : List (String × ByteArray)}
    (hnames : ∀ c ∈ found, c.1.toUTF8.size = 4) (hsizes : ∀ c ∈ found, c.2.size < 2 ^ 32)
    (front : ByteArray) {fuel : Nat} (hfuel : found.length ≤ fuel) :
    chunks (front ++ chunkBytes found) fuel front.size =
      found.map fun (name, content) ↦ (name.toUTF8.toList, content) := by
  induction found generalizing front fuel with
  | nil =>
    have hend : word? (front ++ chunkBytes []) front.size = none := by
      have := getElem?_append_size front (chunkBytes []) 0
      rw [Nat.add_zero] at this
      rw [word?, this]
      rfl
    cases fuel with
    | zero => rfl
    | succ fuel => rw [chunks, hend]; rfl
  | cons c found ih =>
    obtain ⟨name, content⟩ := c
    obtain ⟨fuel, rfl⟩ := Nat.exists_eq_add_one_of_ne_zero (Nat.ne_of_gt (Nat.zero_lt_of_lt hfuel))
    have hlater := ih (fun c hc ↦ hnames c (List.mem_cons_of_mem _ hc))
      (fun c hc ↦ hsizes c (List.mem_cons_of_mem _ hc)) (front ++ chunk name content)
      (Nat.le_of_succ_le_succ hfuel)
    rw [ByteArray.append_assoc] at hlater
    rw [chunkBytes_cons, chunks_succ (hnames _ List.mem_cons_self) (hsizes _ List.mem_cons_self),
      hlater, List.map_cons]

end Chunks

section Picture

variable {b : Bitmap}

private theorem length_bytes (c : Rgb) :
    ((Channels.colour.bytes c).toArray.toList).length = 3 := rfl

private theorem size_rowPixels {y : Nat} (hy : y < b.height) :
    (b.pixels.extract (y * b.width) ((y + 1) * b.width)).size = b.width := by
  have hle : (y + 1) * b.width ≤ b.pixels.size := by
    rw [b.size_pixels, Nat.mul_comm b.width]
    exact Nat.mul_le_mul_right _ hy
  rw [Array.size_extract, Nat.min_eq_left hle, Nat.succ_mul]
  omega

private theorem size_rowBytes {y : Nat} (hy : y < b.height) :
    (rowBytes .colour b y).size = b.width * 3 := by
  rw [← Array.length_toList, rowBytes, Array.toList_flatMap, List.length_flatMap,
    List.map_congr_left fun c _ ↦ length_bytes c, List.map_const', List.sum_replicate_nat,
    Array.length_toList, size_rowPixels hy]

private theorem pixel_rowBytes {x y : Nat} (hx : x < b.width) (hy : y < b.height)
    (palette : ByteArray) :
    pixel 2 palette (rowBytes .colour b y) (x * 3) = b.pixel x y := by
  have hin : x < (b.pixels.extract (y * b.width) ((y + 1) * b.width)).size := by
    rwa [size_rowPixels hy]
  have hsome : b.pixels[y * b.width + x]? = some (b.pixel x y) := by
    have hlt : y * b.width + x < b.pixels.size := by
      rw [Array.size_extract] at hin
      omega
    rw [Bitmap.pixel, Array.getElem?_eq_getElem hlt, Option.getD_some]
  have hpixel : (b.pixels.extract (y * b.width) ((y + 1) * b.width))[x]? = some (b.pixel x y) := by
    rw [Array.size_extract] at hin
    rw [Array.getElem?_extract_of_lt hin, ← hsome, Array.getElem?_eq_getElem]
  have hbyte : ∀ k < 3, (rowBytes .colour b y)[x * 3 + k]? =
      (Channels.colour.bytes (b.pixel x y))[k]? := by
    intro k hk
    rw [← Array.getElem?_toList, rowBytes, Array.toList_flatMap,
      getElem?_flatMap_of_length (fun c _ ↦ length_bytes c) _ hk, Array.getElem?_toList, hpixel]
    rfl
  have h₀ := hbyte 0 (by omega)
  simp only [pixel, h₀, hbyte 1 (by omega), hbyte 2 (by omega)]
  rfl

end Picture

section Decode

variable {b : Bitmap}

private theorem foldl_extract (packed : ByteArray) {size : Nat} (hsize : 0 < size) :
    ((List.range ((packed.size - 1) / size + 1)).map fun k ↦
      packed.extract (k * size) ((k + 1) * size)).foldl (· ++ ·) .empty = packed := by
  have hparts : ∀ n, ((List.range n).map fun k ↦
      packed.extract (k * size) ((k + 1) * size)).foldl (· ++ ·) .empty =
        packed.extract 0 (n * size) := by
    intro n
    induction n with
    | zero =>
      apply ByteArray.ext
      simp
    | succ n ih =>
      have hle : n * size ≤ (n + 1) * size := Nat.mul_le_mul_right size (Nat.le_succ n)
      rw [List.range_succ, List.map_append, List.foldl_append, ih]
      exact (ByteArray.extract_eq_extract_append_extract (n * size) (Nat.zero_le _) hle).symm
  have hroom : packed.size ≤ ((packed.size - 1) / size + 1) * size := by
    have := @Nat.lt_div_mul_add (packed.size - 1) size hsize
    rw [Nat.succ_mul]
    omega
  rw [hparts]
  apply ByteArray.ext
  rw [ByteArray.data_extract, Array.extract_eq_self_of_le hroom]

private def parts (b : Bitmap) : List ByteArray :=
  (List.range (((packedRows .colour b).size - 1) / chunkLimit b + 1)).map fun k ↦
    (packedRows .colour b).extract (k * chunkLimit b) ((k + 1) * chunkLimit b)

private def contents (b : Bitmap) : List (String × ByteArray) :=
  ("IHDR", header .colour b) :: ((parts b).map ("IDAT", ·) ++ [("IEND", .empty)])

private theorem chunkBytes_append (a c : List (String × ByteArray)) :
    chunkBytes (a ++ c) = chunkBytes a ++ chunkBytes c := by
  rw [chunkBytes, List.map_append, List.foldl_append, foldl_append_eq]
  rfl

private theorem encode_eq (b : Bitmap) :
    encode .colour b = signature ++ chunkBytes (contents b) := by
  have hparts : chunkBytes ((parts b).map ("IDAT", ·)) =
      ((List.range (((packedRows .colour b).size - 1) / chunkLimit b + 1)).map fun k ↦
        chunk "IDAT" ((packedRows .colour b).extract (k * chunkLimit b)
          ((k + 1) * chunkLimit b))).foldl (· ++ ·) .empty := by
    rw [chunkBytes, parts, List.map_map, List.map_map]
    rfl
  have hend : chunkBytes [("IEND", .empty)] = chunk "IEND" .empty := by
    rw [chunkBytes_cons]
    exact ByteArray.append_empty
  rw [contents, chunkBytes_cons, chunkBytes_append, hparts, hend, encode]
  simp only [ByteArray.append_assoc]

private theorem chunkLimit_pos (b : Bitmap) : 0 < chunkLimit b :=
  Nat.lt_of_lt_of_le (by decide) (Nat.le_max_left ..)

private theorem foldl_parts (b : Bitmap) : (parts b).foldl (· ++ ·) .empty = packedRows .colour b :=
  foldl_extract _ (chunkLimit_pos b)

private theorem names_contents : ∀ c ∈ contents b, c.1.toUTF8.size = 4 := by
  intro c hc
  simp only [contents, List.mem_cons, List.mem_append, List.mem_map, List.not_mem_nil,
    or_false] at hc
  obtain rfl | ⟨part, -, rfl⟩ | rfl := hc <;> rfl

private theorem sizes_contents (hwidth : b.width < 2 ^ 30) :
    ∀ c ∈ contents b, c.2.size < 2 ^ 32 := by
  intro c hc
  simp only [contents, List.mem_cons, List.mem_append, List.mem_map, List.not_mem_nil,
    or_false] at hc
  obtain rfl | ⟨part, hpart, rfl⟩ | rfl := hc
  · exact show 13 < 2 ^ 32 by decide
  · obtain ⟨k, -, rfl⟩ := List.mem_map.1 hpart
    have hlimit : chunkLimit b < 2 ^ 32 := by
      rw [chunkLimit]
      omega
    rw [ByteArray.size_extract, Nat.succ_mul]
    omega
  · exact show 0 < 2 ^ 32 by decide

private theorem length_le_size (found : List (String × ByteArray))
    (hnames : ∀ c ∈ found, c.1.toUTF8.size = 4) : found.length ≤ (chunkBytes found).size := by
  induction found with
  | nil => exact Nat.zero_le _
  | cons c found ih =>
    have hlater := ih fun d hd ↦ hnames d (List.mem_cons_of_mem _ hd)
    rw [chunkBytes_cons, ByteArray.size_append, size_chunk (hnames c List.mem_cons_self),
      List.length_cons]
    omega

private theorem chunks_encode (hwidth : b.width < 2 ^ 30) :
    chunks (encode .colour b) (encode .colour b).size 8 =
      (contents b).map fun (name, content) ↦ (name.toUTF8.toList, content) := by
  have hfuel : (contents b).length ≤ (encode .colour b).size := by
    have := length_le_size (contents b) names_contents
    rw [encode_eq, ByteArray.size_append]
    omega
  have hchunks := chunks_chunkBytes names_contents (sizes_contents hwidth) signature hfuel
  rw [← encode_eq] at hchunks
  exact hchunks

private theorem named_eq (found : List (String × ByteArray)) (name : String) :
    ((found.map fun (name, content) ↦ (name.toUTF8.toList, content)).filter fun (n, _) ↦
      n = name.toUTF8.toList).map (·.2) = (found.filter (·.1 = name)).map (·.2) := by
  induction found with
  | nil => rfl
  | cons c found ih =>
    have hname : c.1.toByteArray.toList = name.toByteArray.toList ↔ c.1 = name :=
      toList_inj.trans String.toByteArray_inj
    by_cases h : c.1 = name
    · simpa [h] using ih
    · have hne : ¬ c.1.toByteArray.toList = name.toByteArray.toList := mt hname.1 h
      simpa [List.filter_cons, h, hne] using ih

private theorem header_named :
    ((contents b).filter (·.1 = "IHDR")).map (·.2) = [header .colour b] := by
  simp [contents, List.filter_map, Function.comp_def]

private theorem parts_named : ((contents b).filter (·.1 = "IDAT")).map (·.2) = parts b := by
  simp [contents, List.filter_map, Function.comp_def]

private theorem rows_spec (b : Bitmap) :
    ∀ row ∈ (List.range b.height).map (rowBytes .colour b), row.size = b.width * 3 := by
  intro row hrow
  obtain ⟨y, hy, rfl⟩ := List.mem_map.1 hrow
  exact size_rowBytes (List.mem_range.1 hy)

private theorem unfilterRows_packed (b : Bitmap) :
    unfilterRows (filterRows 3 (Array.replicate (b.width * 3) 0)
      ((List.range b.height).map (rowBytes .colour b))) (b.width * 3) 3 b.height 0 #[] =
        some ((List.range b.height).map (rowBytes .colour b)) := by
  have habove : SameRow (Array.replicate (b.width * 3) 0) #[] := by
    intro i
    rw [Array.getElem?_replicate]
    split <;> rfl
  have hrows := unfilterRows_filterRows (show 1 ≤ 3 by omega) (rows_spec b) habove .empty
  rw [List.length_map, List.length_range, ByteArray.empty_append] at hrows
  exact hrows

/-- Reading a picture file gives the picture that it was written for. -/
theorem decode?_encode (hwidth : 0 < b.width) (hheight : 0 < b.height) (hwide : b.width < 2 ^ 30)
    (hhigh : b.height < 2 ^ 32) : decode? (encode .colour b) = some b := by
  have hsignature : ((encode .colour b).extract 0 8).toList = signature.toList := by
    rw [encode_eq, ByteArray.extract_append_eq_left (show 8 = signature.size from rfl)]
  have hwidthWord : word? (header .colour b) 0 = some b.width := by
    have := word?_append .empty (word (UInt32.ofNat b.height) ++ ⟨#[8, 2, 0, 0, 0]⟩)
      (UInt32.ofNat b.width)
    rw [ByteArray.empty_append, ← ByteArray.append_assoc,
      UInt32.toNat_ofNat_of_lt' (Nat.lt_trans hwide (by decide))] at this
    exact this
  have hheightWord : word? (header .colour b) 4 = some b.height := by
    have := word?_append (word (UInt32.ofNat b.width)) ⟨#[8, 2, 0, 0, 0]⟩ (UInt32.ofNat b.height)
    rw [← ByteArray.append_assoc, UInt32.toNat_ofNat_of_lt' hhigh] at this
    exact this
  have hfield : ∀ i, (header .colour b)[8 + i]? = (#[8, 2, 0, 0, 0] : Array UInt8)[i]? :=
    getElem?_append_size (word (UInt32.ofNat b.width) ++ word (UInt32.ofNat b.height))
      ⟨#[8, 2, 0, 0, 0]⟩
  have hkind : (header .colour b)[9]? = some 2 := hfield 1
  have hbits : (header .colour b)[8]? = some 8 := hfield 0
  have hinterlace : (header .colour b)[12]? = some 0 := hfield 4
  have hpacked : inflate? (packedRows .colour b) = some (filterRows 3
      (Array.replicate (b.width * 3) 0) ((List.range b.height).map (rowBytes .colour b))) :=
    inflate?_deflate _
  simp only [decode?, hsignature, chunks_encode hwide, named_eq, header_named, parts_named,
    foldl_parts, hpacked, List.head?_cons, Option.bind_eq_bind, Option.bind_some, hwidthWord,
    hheightWord, hkind, hbits, hinterlace, channels?, unfilterRows_packed]
  have hnot : ¬ (b.width = 0 ∨ b.height = 0) := by omega
  simp only [ne_eq, not_true_eq_false, false_or, if_false, hnot]
  refine congrArg some (Bitmap.eq_of_pixel rfl rfl ?_)
  intro x y (hx : x < b.width) (hy : y < b.height)
  rw [Bitmap.pixel_ofPixels _ hx hy]
  have hrow : ((List.range b.height).map (rowBytes .colour b)).toArray[y]?.getD #[] =
      rowBytes .colour b y := by
    rw [List.getElem?_toArray, List.getElem?_map, List.getElem?_range hy]
    rfl
  rw [hrow, pixel_rowBytes hx hy]

end Decode

end BrainPiet.Png
