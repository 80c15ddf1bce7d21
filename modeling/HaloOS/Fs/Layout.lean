import HaloOS.Fs.Model

/-! The records on disk read back what was written: little-endian numbers, entries of an
indirect block and inodes. -/

namespace HaloOS

variable {data : Block} {d : Dinode} {slot off k x : ℕ}

theorem leByte_toNat (x k : ℕ) : (leByte x k).toNat = x / 256 ^ k % 256 := by
  simp [leByte]

/-- A `short` whose two bytes are those of `x`. -/
theorem u16_of_bytes (bytes : ∀ j < 2, data (off + j) = leByte x j) : u16 data off = x % SHORT := by
  have low := bytes 0 (by omega)
  have high := bytes 1 (by omega)
  rw [Nat.add_zero] at low
  unfold u16
  rw [low, high, leByte_toNat, leByte_toNat]
  simp only [SHORT]
  omega

/-- A `uint` whose four bytes are those of `x`. -/
theorem u32_of_bytes (bytes : ∀ j < 4, data (off + j) = leByte x j) : u32 data off = x % UINT := by
  have one := bytes 0 (by omega)
  have two := bytes 1 (by omega)
  have three := bytes 2 (by omega)
  have four := bytes 3 (by omega)
  rw [Nat.add_zero] at one
  unfold u32 u16
  rw [show off + 2 + 1 = off + 3 by omega, one, two, three, four]
  simp only [leByte_toNat, UINT]
  omega

theorem u16_congr {data' : Block} (same : ∀ j < 2, data' (off + j) = data (off + j)) :
    u16 data' off = u16 data off := by
  have low := same 0 (by omega)
  have high := same 1 (by omega)
  rw [Nat.add_zero] at low
  unfold u16
  rw [low, high]

theorem u32_congr {data' : Block} (same : ∀ j < 4, data' (off + j) = data (off + j)) :
    u32 data' off = u32 data off := by
  have low : u16 data' off = u16 data off := u16_congr fun j small => same j (by omega)
  have high : u16 data' (off + 2) = u16 data (off + 2) := by
    refine u16_congr fun j small => ?_
    rw [Nat.add_assoc]
    exact same (2 + j) (by omega)
  unfold u32
  rw [low, high]

theorem u32_zero : u32 (fun _ => 0) off = 0 := by
  simp [u32, u16]

theorem u32_putU32 (data : Block) (off x : ℕ) : u32 (putU32 off x data) off = x % UINT := by
  refine u32_of_bytes fun j small => ?_
  unfold putU32
  rw [if_pos (by omega), Nat.add_sub_cancel_left]

theorem u32_putU32_of_ne (apart : k + 4 ≤ off ∨ off + 4 ≤ k) :
    u32 (putU32 off x data) k = u32 data k := by
  refine u32_congr fun j small => ?_
  unfold putU32
  rw [if_neg (by omega)]

/-- The two inodes agree in every field of the disk format. -/
structure Dinode.Same (d d' : Dinode) : Prop where
  type : d.type = d'.type
  major : d.major = d'.major
  minor : d.minor = d'.minor
  nlink : d.nlink = d'.nlink
  size : d.size = d'.size
  addrs : ∀ k ≤ NDIRECT, d.addrs k = d'.addrs k

theorem Dinode.Same.refl (d : Dinode) : d.Same d := ⟨rfl, rfl, rfl, rfl, rfl, fun _ _ => rfl⟩

theorem Dinode.Same.symm {d d' : Dinode} (same : d.Same d') : d'.Same d :=
  ⟨same.type.symm, same.major.symm, same.minor.symm, same.nlink.symm, same.size.symm,
    fun k small => (same.addrs k small).symm⟩

theorem Dinode.Same.trans {d d' d'' : Dinode} (first : d.Same d') (second : d'.Same d'') :
    d.Same d'' :=
  ⟨first.type.trans second.type, first.major.trans second.major, first.minor.trans second.minor,
    first.nlink.trans second.nlink, first.size.trans second.size,
    fun k small => (first.addrs k small).trans (second.addrs k small)⟩

/-- Every field fits its type. -/
structure Dinode.Fits (d : Dinode) : Prop where
  type : d.type < SHORT
  major : d.major < SHORT
  minor : d.minor < SHORT
  nlink : d.nlink < SHORT
  size : d.size < UINT
  addrs : ∀ k ≤ NDIRECT, d.addrs k < UINT

theorem Dinode.write_at (d : Dinode) (slot : ℕ) (data : Block) (small : k < 64) :
    d.write slot data (64 * slot + k) = d.byte k := by
  unfold Dinode.write
  rw [if_pos (by omega), Nat.add_sub_cancel_left]

theorem Dinode.read_size (bytes : ∀ k < 64, data (64 * slot + k) = d.byte k) :
    (Dinode.read data slot).size = d.size % UINT := by
  refine u32_of_bytes fun j small => ?_
  rw [Nat.add_assoc, bytes _ (by omega), Dinode.byte, if_neg (by omega), if_neg (by omega),
    if_neg (by omega), if_neg (by omega), if_pos (by omega), Nat.add_sub_cancel_left]

theorem Dinode.read_addrs (bytes : ∀ k < 64, data (64 * slot + k) = d.byte k) (le : k ≤ NDIRECT) :
    (Dinode.read data slot).addrs k = d.addrs k % UINT := by
  simp only [NDIRECT] at le
  refine u32_of_bytes fun j small => ?_
  rw [show 64 * slot + 12 + 4 * k + j = 64 * slot + (12 + 4 * k + j) by omega,
    bytes _ (by omega), Dinode.byte, if_neg (by omega), if_neg (by omega), if_neg (by omega),
    if_neg (by omega), if_neg (by omega), show (12 + 4 * k + j - 12) / 4 = k by omega,
    show (12 + 4 * k + j - 12) % 4 = j by omega]

/-- A slot with the bytes of an inode that fits reads as that inode. -/
theorem Dinode.read_bytes (fits : d.Fits) (bytes : ∀ k < 64, data (64 * slot + k) = d.byte k) :
    (Dinode.read data slot).Same d where
  type := by
    refine (u16_of_bytes (x := d.type) fun j small => ?_).trans (Nat.mod_eq_of_lt fits.type)
    rw [bytes j (by omega), Dinode.byte, if_pos small]
  major := by
    refine (u16_of_bytes (x := d.major) fun j small => ?_).trans (Nat.mod_eq_of_lt fits.major)
    rw [Nat.add_assoc, bytes _ (by omega), Dinode.byte, if_neg (by omega), if_pos (by omega),
      Nat.add_sub_cancel_left]
  minor := by
    refine (u16_of_bytes (x := d.minor) fun j small => ?_).trans (Nat.mod_eq_of_lt fits.minor)
    rw [Nat.add_assoc, bytes _ (by omega), Dinode.byte, if_neg (by omega), if_neg (by omega),
      if_pos (by omega), Nat.add_sub_cancel_left]
  nlink := by
    refine (u16_of_bytes (x := d.nlink) fun j small => ?_).trans (Nat.mod_eq_of_lt fits.nlink)
    rw [Nat.add_assoc, bytes _ (by omega), Dinode.byte, if_neg (by omega), if_neg (by omega),
      if_neg (by omega), if_pos (by omega), Nat.add_sub_cancel_left]
  size := (Dinode.read_size bytes).trans (Nat.mod_eq_of_lt fits.size)
  addrs := fun k le => (Dinode.read_addrs bytes le).trans (Nat.mod_eq_of_lt (fits.addrs k le))

theorem Dinode.write_of_ne {slot' : ℕ} (other : slot' ≠ slot) (small : k < 64) :
    d.write slot data (64 * slot' + k) = data (64 * slot' + k) := by
  unfold Dinode.write
  rw [if_neg (by omega)]

/-- Writing one inode leaves the block addresses of the others. -/
theorem Dinode.read_write_addrs {slot' : ℕ} (other : slot' ≠ slot) (le : k ≤ NDIRECT) :
    (Dinode.read (d.write slot data) slot').addrs k = (Dinode.read data slot').addrs k := by
  simp only [NDIRECT] at le
  refine u32_congr fun j small => ?_
  rw [show 64 * slot' + 12 + 4 * k + j = 64 * slot' + (12 + 4 * k + j) by omega]
  exact Dinode.write_of_ne other (by omega)

end HaloOS
