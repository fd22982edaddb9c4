import Shitos.Mem
import Shitos.Bitmap
import Shitos.Tiling
import Shitos.OrdArr
import Shitos.Heap
import Shitos.HeapInv
import Shitos.HeapFree
import Shitos.HeapRun
import Shitos.HeapGrow
import Shitos.Paging
import Shitos.Syscall
import Shitos.Prog
import Shitos.Vmem
import Shitos.VmemFrames
import Shitos.Ext2Disk
import Shitos.Ext2Alloc
import Shitos.Ext2Bits
import Shitos.Ext2Count
import Shitos.Pipe
import Shitos.HashMap
import Shitos.BootInode
import Shitos.Ext2Dir
import Shitos.BootScan
import Shitos.BootRead
import Shitos.TmIo
import Shitos.Keyboard
import Shitos.AnsiCalls
import Shitos.AnsiCursor
import Shitos.Psf
import Shitos.FbTerm
import Shitos.ElfStack
import Shitos.ElfConfine
import Shitos.FdTable
import Shitos.Links
import Shitos.DList
import Shitos.Forest
import Shitos.Tree
import Shitos.Dospart
import Shitos.Ext2Blocks
import Shitos.PtrTree
import Shitos.Ext2Volume
import Shitos.Ext2Map
import Shitos.Ext2Remap
import Shitos.Ext2Grow
import Shitos.Ext2Dense
import Shitos.Ext2Shrink
import Shitos.Ext2Tail
import Shitos.Ext2Transfer
import Shitos.Ext2Bytes
import Shitos.Ext2File
import Shitos.Ext2Write
import Shitos.Ext2Inodes
import Shitos.Ext2Directory
import Shitos.Ext2Unlink
import Shitos.Ext2Content
import Shitos.Ext2Numbering
import Shitos.Loop
import Shitos.Ext2Walk
import Shitos.Ext2Mount
import Shitos.Ata
import Shitos.BlockPath
import Shitos.Ext2Entries
import Shitos.Ext2Insert
import Shitos.Ext2Files
import Shitos.Ext2Symlink
import Shitos.Ext2Arrays
import Shitos.Components
import Shitos.CanonPath
import Shitos.Kopen
import Shitos.HeapAlign
import Shitos.HeapSlots
import Shitos.HeapOrder
import Shitos.HeapRealloc
import Shitos.HeapShrink
import Shitos.HeapMove
import Shitos.HeapExtend
import Shitos.HeapProbe
import Shitos.HeapRequest
import Shitos.RunScan
import Shitos.VmemSearch
import Shitos.VmemMapAddr
import Shitos.VmemNested
import Shitos.VmemWindows
import Shitos.DListInsert
import Shitos.SyscallTable
import Shitos.KopenTurns
import Shitos.KopenLinks
import Shitos.KopenNofollow
import Shitos.KopenFrees
import Shitos.AddrSpace
import Shitos.Elf
import Shitos.StoreLog
import Shitos.Runs
import Shitos.Snprintf
import Shitos.StdioWrite
import Shitos.StdioRead
import Shitos.Fgets
import Shitos.HeapPad
import Shitos.HeapRounds
import Shitos.VfsOpen
import Shitos.KbdStream
import Shitos.Console
import Shitos.Random
import Shitos.Atoi
import Shitos.Ext2Clients
