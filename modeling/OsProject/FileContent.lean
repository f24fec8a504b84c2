import OsProject.FsRun
import OsProject.Overwrite

/-! The content of a file as a list of bytes: `readi` returns a part of it, and `writei` overwrites
it. -/

namespace OsProject

variable {sb : Superblock} {s : Fs} {nodes : Nodes} {hold : Slot → Nat} {held : List Slot}
  {doomed : List Nat} {ip : Slot} {src : Nat → Option UInt8} {off n k g : Nat} {t : Fs}

def Fs.content (s : Fs) (n : Nat) : List UInt8 :=
  bytesFrom (byteAt s.dinode s.data n) 0 (s.dinode n).size

theorem length_bytesFrom (c : Nat → UInt8) (off n : Nat) : (bytesFrom c off n).length = n := by
  simp [bytesFrom]

theorem getElem?_bytesFrom (c : Nat → UInt8) (off n i : Nat) :
    (bytesFrom c off n)[i]? = if i < n then some (c (off + i)) else none := by
  by_cases hi : i < n
  · rw [if_pos hi, bytesFrom, List.getElem?_map, List.getElem?_range hi]
    rfl
  · rw [if_neg hi, List.getElem?_eq_none]
    rw [length_bytesFrom]
    omega

theorem drop_bytesFrom (c : Nat → UInt8) (off n i : Nat) :
    (bytesFrom c off n).drop i = bytesFrom c (off + i) (n - i) := by
  refine List.ext_getElem? fun j => ?_
  rw [List.getElem?_drop, getElem?_bytesFrom, getElem?_bytesFrom]
  by_cases hj : i + j < n
  · rw [if_pos hj, if_pos (by omega), Nat.add_assoc]
  · rw [if_neg hj, if_neg (by omega)]

theorem take_bytesFrom (c : Nat → UInt8) (off n m : Nat) :
    (bytesFrom c off n).take m = bytesFrom c off (min m n) := by
  rw [bytesFrom, ← List.map_take, List.take_range]
  rfl

@[simp] theorem Fs.length_content (s : Fs) (n : Nat) : (s.content n).length = (s.dinode n).size :=
  length_bytesFrom _ _ _

theorem Fs.getElem?_content (s : Fs) (n o : Nat) : (s.content n)[o]? =
    if o < (s.dinode n).size then some (byteAt s.dinode s.data n o) else none := by
  rw [Fs.content, getElem?_bytesFrom, Nat.zero_add]

theorem Fs.content_congr {s' : Fs} {n : Nat} (hnode : s'.dinode n = s.dinode n)
    (hdata : s'.data = s.data) : s'.content n = s.content n := by
  have hbytes : byteAt s'.dinode s'.data n = byteAt s.dinode s.data n := by
    funext o
    rw [byteAt, byteAt, hdata, place_eq_of_nodes hnode]
  rw [Fs.content, Fs.content, hbytes, hnode]

/-- The bytes that a read of `m` bytes at `o` gets. The sum of two `uint`s must not wrap. -/
def slice (content : List UInt8) (o m : Nat) : List UInt8 :=
  if o + m < 2 ^ 32 then (content.drop o).take m else []

theorem getElem?_eq_of_slice {l l' : List UInt8} {o : Nat} (ho : o + 1 < 2 ^ 32)
    (h : slice l o 1 = slice l' o 1) : l[o]? = l'[o]? := by
  rw [slice, slice, if_pos ho, if_pos ho] at h
  have hzero := congrArg (·[0]?) h
  simpa [List.getElem?_take, List.getElem?_drop] using hzero

theorem slice_content (s : Fs) (n o m : Nat) : slice (s.content n) o m =
    bytesFrom (byteAt s.dinode s.data n) o (readable (s.dinode n).size o m) := by
  rw [slice, readable]
  split_ifs
  · rw [Fs.content, drop_bytesFrom, take_bytesFrom, Nat.zero_add]
  · rfl

theorem readi_content (hco : (s.inode ip).toDinode = s.dinode (s.inode ip).inum)
    (hn : (s.dinode (s.inode ip).inum).type ≠ .free)
    (hfill : Filled s.data (s.dinode (s.inode ip).inum)) (o : Nat) {m : Nat} (hm : m < 2 ^ 32) :
    readi sb ip (fun _ => true) o m s =
      .ok (((slice (s.content (s.inode ip).inum) o m).length,
        slice (s.content (s.inode ip).inum) o m), s) := by
  have hspec : wp (readi sb ip (fun _ => true) o m) _ (fun _ => False) s :=
    readi_filled hco hn hfill hm
  obtain ⟨r, s', hread, rfl, hres⟩ := exists_ok_of_wp hspec
  rw [hread, hres fun _ => rfl, slice_content, length_bytesFrom, ← hco]

/-- The bytes that the loop of `writei` has copied. -/
def copied (src : Nat → Option UInt8) (k : Nat) : List UInt8 :=
  bytesFrom (fun i => (src i).getD 0) 0 k

theorem copied_list (src : List UInt8) : copied (fun i => src[i]?) src.length = src := by
  refine List.ext_getElem? fun i => ?_
  rw [copied, getElem?_bytesFrom, Nat.zero_add]
  by_cases hi : i < src.length
  · rw [if_pos hi, List.getElem?_eq_getElem hi, Option.getD_some]
  · rw [if_neg hi, List.getElem?_eq_none (by omega)]

section Written

variable (hd : LoopDone sb hold held doomed ip src off n 0 k g s t s.dinode nodes)
  (h : FsOk sb s hold held doomed) (hr : 0 < (s.inode ip).ref) (hv : (s.inode ip).valid = true)
  (hoff : off ≤ (s.inode ip).size) (hfits : off + n ≤ MAXFILE * BSIZE)

include hd hr hv hoff hfits in
theorem LoopDone.size_resized (size : Nat) (l : List Nat) (m : Nat) :
    ((resized t ip size l).dinode m).size =
      if m = (s.inode ip).inum then size else (s.dinode m).size := by
  rw [(hd.writeDone hoff hfits).resized_dinode hr hv]
  by_cases hm : m = (s.inode ip).inum
  · rw [if_pos hm, hm, Function.update_self]
  · rw [if_neg hm, Function.update_of_ne hm, hd.grew.size]

include hd h hr hv hoff hfits

theorem LoopDone.byteAt_written (l : List Nat) {o : Nat}
    (ho : o < max (s.inode ip).size (off + k)) :
    byteAt (resized t ip (max (s.inode ip).size (off + k)) l).dinode
      (resized t ip (max (s.inode ip).size (off + k)) l).data (s.inode ip).inum o =
      if off ≤ o ∧ o < off + (k + g) then (src (o - off)).getD 0
      else byteAt s.dinode s.data (s.inode ip).inum o := by
  obtain ⟨hco, hty⟩ := h.cache.coherent ip hr hv
  have hw := hd.writeDone hoff hfits
  by_cases hin : off ≤ o ∧ o < off + (k + g)
  · obtain ⟨v, hsrc⟩ := Option.isSome_iff_exists.mp (hd.mapped (o - off) (by omega))
    rw [Nat.zero_add] at hsrc
    have hbyte := (hd.wrote (o - off) (by omega)).2.2 v (by rwa [Nat.zero_add])
    rw [show off + (o - off) = o by omega] at hbyte
    rw [if_pos hin, hw.byteAt_resized hr hv, hbyte, hsrc, Option.getD_some]
  · rw [if_neg hin]
    exact hw.byteAt_outside hr hv h hd.grew (hco ▸ hty) (by rw [← hco]; omega) (.inr (by omega))

theorem LoopDone.content_written (l : List Nat) :
    (resized t ip (max (s.inode ip).size (off + k)) l).content (s.inode ip).inum =
      (overwrite (s.content (s.inode ip).inum) off (copied src (k + g))).take
        (max (s.inode ip).size (off + k)) := by
  obtain ⟨hco, -⟩ := h.cache.coherent ip hr hv
  have hsize := hd.size_resized hr hv hoff hfits (max (s.inode ip).size (off + k)) l
    (s.inode ip).inum
  rw [if_pos rfl] at hsize
  have hlen : off ≤ (s.content (s.inode ip).inum).length := by
    rw [Fs.length_content, ← hco]
    exact hoff
  refine List.ext_getElem? fun o => ?_
  rw [Fs.getElem?_content, hsize, List.getElem?_take, getElem?_overwrite hlen]
  by_cases ho : o < max (s.inode ip).size (off + k)
  · rw [if_pos ho, if_pos ho, hd.byteAt_written h hr hv hoff hfits l ho, copied, length_bytesFrom]
    split_ifs with hin
    · rw [getElem?_bytesFrom, if_pos (by omega), Nat.zero_add]
    · rw [Fs.getElem?_content, if_pos (by rw [← hco]; omega)]
  · rw [if_neg ho, if_neg ho]

theorem LoopDone.content_other (size : Nat) (l : List Nat) {m : Nat} (hm : m ≠ (s.inode ip).inum)
    (htype : (s.dinode m).type ≠ .free) : (resized t ip size l).content m = s.content m := by
  have hsize := hd.size_resized hr hv hoff hfits size l m
  rw [if_neg hm] at hsize
  refine List.ext_getElem? fun o => ?_
  rw [Fs.getElem?_content, Fs.getElem?_content, hsize]
  split_ifs with ho
  · rw [(hd.writeDone hoff hfits).byteAt_outside hr hv h hd.grew htype ho (.inl hm)]
  · rfl

theorem LoopDone.readi_written (l : List Nat) (o : Nat) {m : Nat} (hm : m < 2 ^ 32) :
    readi sb ip (fun _ => true) o m (resized t ip (max (s.inode ip).size (off + k)) l) =
      .ok (((slice ((resized t ip (max (s.inode ip).size (off + k)) l).content
          (s.inode ip).inum) o m).length,
        slice ((resized t ip (max (s.inode ip).size (off + k)) l).content (s.inode ip).inum) o m),
        resized t ip (max (s.inode ip).size (off + k)) l) := by
  have hw := hd.writeDone hoff hfits
  obtain ⟨hslot, htype⟩ := hw.slot hr hv
  have hsize := h.size_le hr hv
  have hle := hw.le
  have hinum : ((resized t ip (max (s.inode ip).size (off + k)) l).inode ip).inum =
      (s.inode ip).inum := by
    rw [← hd.grew.inum ip]
    simp [resized]
  have hdinode := hw.resized_dinode hr hv (max (s.inode ip).size (off + k)) l
  rw [← hinum]
  refine readi_content ?_ ?_ ?_ o hm
  · rw [hinum, hdinode, Function.update_self, ← hslot]
    simp [resized]
  · rw [hinum, hdinode, Function.update_self]
    exact htype
  · rw [hinum, hdinode, Function.update_self]
    refine ⟨by simp only; omega, fun bn hbn => ?_⟩
    have hmapped := hw.mapped hr hv hbn
    have hlt : bn < MAXFILE :=
      lt_of_mul_lt_mul_right (lt_of_lt_of_le hbn (by simp only; omega)) (Nat.zero_le _)
    rw [place_of_le htype hlt.le] at hmapped
    exact hmapped

end Written

def noteCalls : List (Fin NPROC × FsCall) :=
  [(0, .open (some [102, 0]) (O_CREATE ||| O_RDWR)), (0, .write 0 5 (fun _ => some 7) 0)]

def NoteOpen (s : Fs) : Prop :=
  0 < (s.inode 1).ref ∧ (s.inode 1).valid = true ∧ (s.inode 1).inum = 2 ∧ (s.inode 1).size = 5 ∧
    s.content 2 = [7, 7, 7, 7, 7]

instance : DecidablePred NoteOpen := fun _ => inferInstanceAs (Decidable (_ ∧ _))

theorem noteOpen_noteCalls :
    Outcome NoteOpen (fun _ => False) (noteCalls.foldl (fsStep smallSb) (.ok smallFs)) := by
  decide +kernel

theorem exists_note : ∃ s, Sys smallSb s [] ∧ NoteOpen s := by
  obtain ⟨s, -, hsys, hnote⟩ := exists_of_run sys_smallFs noteOpen_noteCalls
  exact ⟨s, hsys, hnote⟩

def writeRead (src : Nat → Option UInt8) (off n o m : Nat) : FsM (Int × Int × List UInt8) := do
  let r ← writei smallSb 1 src off n
  let x ← readi smallSb 1 (fun _ => true) o m
  return (r, x)

/-- A read after a write of all of `src`. -/
theorem read_after_write {src : List UInt8} {s' : Fs} (h : FsOk sb s hold held doomed)
    (hr : 0 < (s.inode ip).ref) (hv : (s.inode ip).valid = true) (hoff : off ≤ (s.inode ip).size)
    (hfits : off + src.length ≤ MAXFILE * BSIZE)
    (hwrite : writei sb ip (fun i => src[i]?) off src.length s = .ok ((src.length : Int), s')) :
    (overwrite (s.content (s.inode ip).inum) off src).length =
        max (s.inode ip).size (off + src.length) ∧
      (∀ o m, m < 2 ^ 32 → readi sb ip (fun _ => true) o m s' =
        .ok (((slice (overwrite (s.content (s.inode ip).inum) off src) o m).length,
          slice (overwrite (s.content (s.inode ip).inum) off src) o m), s')) ∧
      ∀ n, n ≠ (s.inode ip).inum → (s.dinode n).type ≠ .free → s'.content n = s.content n := by
  obtain ⟨hco, -⟩ := h.cache.coherent ip hr hv
  have hmax : MAXFILE * BSIZE < 2 ^ 32 := by decide
  have hlen : off ≤ (s.content (s.inode ip).inum).length := by
    rw [Fs.length_content, ← hco]
    exact hoff
  have hsize : (overwrite (s.content (s.inode ip).inum) off src).length =
      max (s.inode ip).size (off + src.length) := by
    rw [length_overwrite hlen, Fs.length_content, ← hco]
  have hspec := wp_ok (writei_loop (E := fun _ => True) h hr hv (by omega)) hwrite
  rcases hspec with ⟨hneg, -⟩ | ⟨k, g, t, nodes, l, hk, -, -, hd, rfl⟩
  · omega
  · have hkn : k = src.length := by omega
    have hg : g = 0 := by
      have hle := hd.stop.le
      omega
    subst hg
    have hcontent := hd.content_written h hr hv hoff hfits l
    have hcopied : copied (fun i => src[i]?) (k + 0) = src := by
      rw [Nat.add_zero, hkn, copied_list]
    rw [hcopied, List.take_of_length_le (by rw [hsize, hkn])] at hcontent
    refine ⟨hsize, fun o m hm => ?_, fun n hn htype => ?_⟩
    · rw [hd.readi_written h hr hv hoff hfits l o hm, hcontent]
    · exact hd.content_other h hr hv hoff hfits _ l hn htype

theorem writeRead_wraps : Outcome (fun s => NoteOpen s ∧
    returned (writeRead (fun i => ([9, 9] : List UInt8)[i]?) 3 2 1 (2 ^ 32 - 1)) s = some (2, 0, []))
      (fun _ => False) (noteCalls.foldl (fsStep smallSb) (.ok smallFs)) := by
  decide +kernel

theorem read_after_write_wraps : ∃ s, Sys smallSb s [] ∧ NoteOpen s ∧
    returned (writeRead (fun i => ([9, 9] : List UInt8)[i]?) 3 2 1 (2 ^ 32 - 1)) s = some (2, 0, []) ∧
    ((overwrite (s.content 2) 3 [9, 9]).drop 1).take (2 ^ 32 - 1) = [7, 7, 9, 9] := by
  obtain ⟨s, -, hsys, hnote, hrun⟩ := exists_of_run sys_smallFs writeRead_wraps
  refine ⟨s, hsys, hnote, hrun, ?_⟩
  obtain ⟨-, -, -, -, hcontent⟩ := hnote
  rw [hcontent]
  rfl

theorem writei_note : Outcome (fun s => NoteOpen s ∧
    returned (writei smallSb 1 (fun i => ([9, 9] : List UInt8)[i]?) 3 2) s = some 2)
      (fun _ => False) (noteCalls.foldl (fsStep smallSb) (.ok smallFs)) := by
  decide +kernel

theorem read_after_write_note : ∃ s s', NoteOpen s ∧
    writei smallSb 1 (fun i => ([9, 9] : List UInt8)[i]?) 3 2 s = .ok (2, s') ∧
    readi smallSb 1 (fun _ => true) 1 9 s' = .ok ((4, [7, 7, 9, 9]), s') := by
  obtain ⟨s, -, hsys, hnote, hrun⟩ := exists_of_run sys_smallFs writei_note
  obtain ⟨s', hwrite⟩ := exists_of_returned hrun
  refine ⟨s, s', hnote, hwrite, ?_⟩
  obtain ⟨hr, hv, hinum, hsize, hcontent⟩ := hnote
  have hwrite' : writei smallSb 1 (fun i => ([9, 9] : List UInt8)[i]?) 3
      ([9, 9] : List UInt8).length s = .ok ((([9, 9] : List UInt8).length : Int), s') := hwrite
  obtain ⟨-, hread, -⟩ := read_after_write hsys.ok hr hv (by omega) (by decide) hwrite'
  rw [hread 1 9 (by decide), hinum, hcontent]
  rfl

/-- A write that returns fewer bytes than it was given has written these and nothing else. -/
def ShortWriteExact (sb : Superblock) (s : Fs) (ip : Slot) (src : Nat → Option UInt8)
    (off n : Nat) : Prop :=
  ∀ (r : Nat) (s' : Fs), writei sb ip src off n s = .ok ((r : Int), s') → r < n →
    (s'.inode ip).size = max (s.inode ip).size (off + r) ∧
    ∀ o m, m < 2 ^ 32 → readi sb ip (fun _ => true) o m s' =
      .ok (((slice (overwrite (s.content (s.inode ip).inum) off (copied src r)) o m).length,
        slice (overwrite (s.content (s.inode ip).inum) off (copied src r)) o m), s')

/-- Where the source faults at byte `f`, the bytes before it that go to the same block of the file
are in the file already. -/
def FaultKeeps (s : Fs) (ip : Slot) (src : Nat → Option UInt8) (off n : Nat) : Prop :=
  off ≤ (s.inode ip).size → off + n ≤ MAXFILE * BSIZE → ∀ i f, f < n →
    (∀ j ≤ i, (src j).isSome) → src f = none → (off + i) / BSIZE = (off + f) / BSIZE →
    off + i < (s.inode ip).size → (s.content (s.inode ip).inum)[off + i]? = src i

section Short

variable (hd : LoopDone sb hold held doomed ip src off n 0 k g s t s.dinode nodes)

include hd in
theorem LoopDone.fault_block (h : FsOk sb s hold held doomed) (hr : 0 < (s.inode ip).ref)
    (hv : (s.inode ip).valid = true) {i f : Nat} (hfn : f < n)
    (hmapped : ∀ j ≤ i, (src j).isSome) (hfault : src f = none)
    (hblock : (off + i) / BSIZE = (off + f) / BSIZE) (hsize : off + i < (s.inode ip).size) :
    k ≤ i ∧ i < k + g := by
  obtain ⟨hco, hty⟩ := h.cache.coherent ip hr hv
  have hkf : k + g ≤ f := by
    by_contra hlt
    have hsome := hd.mapped f (by omega)
    rw [Nat.zero_add, hfault] at hsome
    exact absurd hsome (by simp)
  rcases hd.stop with ⟨rfl, rfl⟩ | ⟨hstart, hk, hwhy⟩
  · omega
  · have hki : k ≤ i := by
      by_contra hlt
      have hk0 : (off + k) % BSIZE = 0 := hstart.resolve_left (by omega)
      have hdiv := Nat.div_add_mod (off + k) BSIZE
      rw [hk0, Nat.add_zero] at hdiv
      have hlo : (off + i) / BSIZE < (off + k) / BSIZE := Nat.div_lt_of_lt_mul (by omega)
      have hhi : (off + k) / BSIZE ≤ (off + f) / BSIZE := Nat.div_le_div_right (by omega)
      omega
    refine ⟨hki, ?_⟩
    rcases hwhy with ⟨-, hhole, -⟩ | ⟨-, -, hnone⟩
    · have hplace := (h.vol.filled _ (hco ▸ hty)).place_ne (hco ▸ hty) (o := off + k)
        (by rw [← hco]; omega)
      rw [hd.grew.blocks _ hplace.2] at hhole
      exact absurd hhole hplace.2
    · by_contra hge
      rw [Nat.zero_add] at hnone
      have hsome := hmapped (k + g) (by omega)
      rw [hnone] at hsome
      exact absurd hsome (by simp)

include hd in
theorem LoopDone.fault_after {i : Nat} (hki : k ≤ i) (hikg : i < k + g) :
    ∃ f, f < n ∧ (∀ j ≤ i, (src j).isSome) ∧ src f = none ∧ (off + i) / BSIZE = (off + f) / BSIZE := by
  rcases hd.stop with ⟨-, rfl⟩ | ⟨-, -, ⟨rfl, -⟩ | ⟨hlt, hsame, hnone⟩⟩
  · omega
  · omega
  · rw [Nat.zero_add] at hnone
    refine ⟨k + g, hlt, fun j hj => ?_, hnone, ?_⟩
    · have hsome := hd.mapped j (by omega)
      rwa [Nat.zero_add] at hsome
    · have hlo : (off + k) / BSIZE ≤ (off + i) / BSIZE := Nat.div_le_div_right (by omega)
      have hhi : (off + i) / BSIZE ≤ (off + (k + g)) / BSIZE := Nat.div_le_div_right (by omega)
      omega

theorem LoopDone.take_overwrite {old : List UInt8} (hoff : off ≤ old.length)
    (hkeep : ∀ i, k ≤ i → i < k + g → off + i < old.length → old[off + i]? = src i) :
    (overwrite old off (copied src (k + g))).take (max old.length (off + k)) =
      overwrite old off (copied src k) := by
  have hlen : ∀ j, (copied src j).length = j := fun j => length_bytesFrom _ _ _
  refine List.ext_getElem? fun o => ?_
  rw [List.getElem?_take, getElem?_overwrite hoff, getElem?_overwrite hoff, hlen, hlen, copied,
    copied, getElem?_bytesFrom, getElem?_bytesFrom, Nat.zero_add]
  by_cases ho : o < max old.length (off + k)
  · rw [if_pos ho]
    by_cases hin : off ≤ o ∧ o < off + k
    · rw [if_pos (by omega), if_pos (by omega), if_pos hin, if_pos (by omega)]
    · rw [if_neg hin]
      split_ifs with hmore hlt
      · have hk := hkeep (o - off) (by omega) (by omega) (by omega)
        rw [show off + (o - off) = o by omega, List.getElem?_eq_getElem (by omega)] at hk
        rw [List.getElem?_eq_getElem (by omega), ← hk, Option.getD_some]
      · omega
      · rfl
  · rw [if_neg ho, if_neg (by omega), List.getElem?_eq_none (by omega)]

end Short

/-- A short write is exact iff the fault finds nothing to damage. -/
theorem short_write_exact_iff (h : FsOk sb s hold held doomed) (hr : 0 < (s.inode ip).ref)
    (hv : (s.inode ip).valid = true) (hn : n < 2 ^ 32) :
    ShortWriteExact sb s ip src off n ↔ FaultKeeps s ip src off n := by
  obtain ⟨hco, -⟩ := h.cache.coherent ip hr hv
  have hlen : (s.content (s.inode ip).inum).length = (s.inode ip).size := by
    rw [Fs.length_content, ← hco]
  constructor
  · intro hexact hoff hfits i f hfn hmapped hfault hblock hsize
    have hwp : wp (writei sb ip src off n) _ (fun _ => False) s := writei_loop h hr hv hn
    obtain ⟨r, s', hwrite, hspec⟩ := exists_ok_of_wp hwp
    rcases hspec with ⟨-, -, hbad⟩ | ⟨k, g, t, nodes, l, rfl, -, -, hd, rfl⟩
    · omega
    · obtain ⟨hki, hikg⟩ := hd.fault_block h hr hv hfn hmapped hfault hblock hsize
      obtain ⟨-, hread⟩ := hexact k _ hwrite (by have := hd.stop.le; omega)
      have hone := hread (off + i) 1 (by decide)
      rw [hd.readi_written h hr hv hoff hfits l (off + i) (by decide)] at hone
      have hslice := congrArg (fun r => r.map fun p => p.1.2) hone
      have hlt := h.size_lt hr hv
      have hat := getElem?_eq_of_slice (by omega) (Except.ok.inj hslice)
      rw [hd.content_written h hr hv hoff hfits l, List.getElem?_take, if_pos (by omega),
        getElem?_overwrite (by omega), getElem?_overwrite (by omega), copied, copied,
        length_bytesFrom, length_bytesFrom, if_pos (by omega), if_neg (by omega),
        getElem?_bytesFrom, if_pos (by omega)] at hat
      obtain ⟨v, hsrc⟩ := Option.isSome_iff_exists.mp (hmapped i le_rfl)
      rw [← hat, show 0 + (off + i - off) = i by omega, hsrc, Option.getD_some]
  · intro hkeep r s' hwrite hlt
    have hspec := wp_ok (writei_loop (E := fun _ => True) h hr hv hn) hwrite
    rcases hspec with ⟨hneg, -⟩ | ⟨k, g, t, nodes, l, hk, hoff, hfits, hd, rfl⟩
    · omega
    · obtain rfl : r = k := by omega
      have hcontent := hd.content_written h hr hv hoff hfits l
      rw [← hlen, LoopDone.take_overwrite (by omega) ?_] at hcontent
      · refine ⟨by simp [resized], fun o m hm => ?_⟩
        rw [hd.readi_written h hr hv hoff hfits l o hm, ← hlen, hcontent]
      · intro i hki hikg hsize
        obtain ⟨f, hfn, hmapped, hfault, hblock⟩ := hd.fault_after hki hikg
        exact hkeep hoff hfits i f hfn hmapped hfault hblock (by omega)

def pageEnd (i : Nat) : Option UInt8 := if i = 0 then some 9 else none

theorem writeRead_pageEnd : Outcome
    (fun s => NoteOpen s ∧ returned (writeRead pageEnd 0 2 0 5) s = some (0, 5, [9, 7, 7, 7, 7]))
      (fun _ => False) (noteCalls.foldl (fsStep smallSb) (.ok smallFs)) := by
  decide +kernel

theorem short_write_torn : ∃ s, Sys smallSb s [] ∧ NoteOpen s ∧
    returned (writeRead pageEnd 0 2 0 5) s = some (0, 5, [9, 7, 7, 7, 7]) ∧
    ¬ ShortWriteExact smallSb s 1 pageEnd 0 2 := by
  obtain ⟨s, -, hsys, hnote, hrun⟩ := exists_of_run sys_smallFs writeRead_pageEnd
  refine ⟨s, hsys, hnote, hrun, fun hexact => ?_⟩
  obtain ⟨-, -, hinum, -, hcontent⟩ := hnote
  obtain ⟨u, hrun⟩ := exists_of_returned hrun
  obtain ⟨r, s', hwrite, hrun⟩ := exists_of_bind_ok hrun
  obtain ⟨x, s'', hread, hrun⟩ := exists_of_bind_ok hrun
  obtain ⟨rfl, rfl⟩ : r = 0 ∧ x = (5, [9, 7, 7, 7, 7]) := by
    cases hrun
    exact ⟨rfl, rfl⟩
  obtain ⟨-, hreads⟩ := hexact 0 s' hwrite (by decide)
  rw [hreads 0 5 (by decide), hinum, hcontent] at hread
  cases hread

theorem short_write_same : ∃ s, Sys smallSb s [] ∧ NoteOpen s ∧
    ShortWriteExact smallSb s 1 (fun i => if i = 0 then some 7 else none) 0 2 := by
  obtain ⟨s, hsys, hnote⟩ := exists_note
  refine ⟨s, hsys, hnote, ?_⟩
  obtain ⟨hr, hv, hinum, -, hcontent⟩ := hnote
  refine (short_write_exact_iff hsys.ok hr hv (by decide)).mpr fun _ _ i f _ hmapped _ _ _ => ?_
  have hi : i = 0 := by
    by_contra hne
    have hsome := hmapped i le_rfl
    rw [if_neg hne] at hsome
    exact absurd hsome (by decide)
  rw [hi, hinum, hcontent]
  rfl

end OsProject
