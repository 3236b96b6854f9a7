import Mathlib.Algebra.Group.Nat.Defs
/-!
# Kernel and file-system parameters

The constants of the kernel's header files, under the names the source
gives them.
-/

namespace Xv6

/-! ## `kernel/param.h` -/

/-- Maximum number of processes. -/
abbrev NPROC : ℕ := 64

/-- Open files per process. -/
abbrev NOFILE : ℕ := 16

/-- Open files per system. -/
abbrev NFILE : ℕ := 100

/-- Maximum number of arguments of `exec`. -/
abbrev MAXARG : ℕ := 32

/-- Maximum length of a path. -/
abbrev MAXPATH : ℕ := 128

/-- Maximum number of active i-nodes. -/
abbrev NINODE : ℕ := 50

/-- Device number of the file system's root disk. -/
abbrev ROOTDEV : ℕ := 1

/-- Maximum number of blocks any file-system operation writes. -/
abbrev MAXOPBLOCKS : ℕ := 10

/-- Maximum number of data blocks in the on-disk log. -/
abbrev LOGSIZE : ℕ := MAXOPBLOCKS * 3

/-- Size of the disk block cache. -/
abbrev NBUF : ℕ := MAXOPBLOCKS * 3

/-- Size of the file system in blocks. -/
abbrev FSSIZE : ℕ := 1000

/-! ## `kernel/fs.h` -/

/-- Root i-number. -/
abbrev ROOTINO : ℕ := 1

/-- What the superblock starts with. -/
abbrev FSMAGIC : ℕ := 0x10203040

/-- Block size in bytes. -/
abbrev BSIZE : ℕ := 1024

/-- Direct block addresses of an inode. -/
abbrev NDIRECT : ℕ := 12

/-- Addresses in an indirect block, `BSIZE / sizeof(uint)`. -/
abbrev NINDIRECT : ℕ := BSIZE / 4

/-- Maximum number of blocks of a file. -/
abbrev MAXFILE : ℕ := NDIRECT + NINDIRECT

/-- Inodes per block, `BSIZE / sizeof(struct dinode)`. -/
abbrev IPB : ℕ := BSIZE / 64

/-- Bitmap bits per block. -/
abbrev BPB : ℕ := BSIZE * 8

/-- Length of a name in a directory entry. -/
abbrev DIRSIZ : ℕ := 14

/-! ## `kernel/riscv.h` -/

/-- Bytes per page. -/
abbrev PGSIZE : ℕ := 4096

/-- Valid. -/
abbrev PTE_V : ℕ := 1

abbrev PTE_R : ℕ := 2

abbrev PTE_W : ℕ := 4

abbrev PTE_X : ℕ := 8

/-- The user can access it. -/
abbrev PTE_U : ℕ := 16

/-- One beyond the highest possible virtual address. -/
abbrev MAXVA : ℕ := 2 ^ 38

/-! ## `kernel/memlayout.h` -/

/-- Where physical memory starts. -/
abbrev KERNBASE : ℕ := 0x80000000

/-- Where the physical memory the kernel uses ends. -/
abbrev PHYSTOP : ℕ := KERNBASE + 128 * 1024 * 1024

/-- The trampoline page, at the highest virtual address. -/
abbrev TRAMPOLINE : ℕ := MAXVA - PGSIZE

/-- The trapframe page, below the trampoline. -/
abbrev TRAPFRAME : ℕ := TRAMPOLINE - PGSIZE

/-! ## `kernel/elf.h` -/

abbrev ELF_MAGIC : ℕ := 0x464C457F

abbrev ELF_PROG_LOAD : ℕ := 1

/-! ## `kernel/stat.h` -/

abbrev T_DIR : ℕ := 1

abbrev T_FILE : ℕ := 2

/-! ## `kernel/fcntl.h` -/

abbrev O_RDONLY : ℕ := 0x000

abbrev O_WRONLY : ℕ := 0x001

abbrev O_CREATE : ℕ := 0x200

abbrev O_TRUNC : ℕ := 0x400

end Xv6
