import Xv6.Theory.Bytes
import Xv6.Theory.Steps
import Xv6.Kernel.Block
import Xv6.Kernel.Log
import Xv6.Kernel.Commit
import Xv6.Kernel.Crash
import Xv6.Kernel.LogGroup
import Xv6.Kernel.Bio
import Xv6.Kernel.BufferedLog
import Xv6.Kernel.FlatDisk
import Xv6.Kernel.LogSpace
import Xv6.Kernel.PageMap
import Xv6.Kernel.Exec
import Xv6.Kernel.Machine
import Xv6.Kernel.Ownership
import Xv6.Kernel.Family
import Xv6.Kernel.History
import Xv6.Kernel.Pipe
import Xv6.Kernel.Pstree
import Xv6.Kernel.Report
import Xv6.Kernel.Dir
import Xv6.Kernel.FsBlocks
import Xv6.Kernel.FsContents
import Xv6.Kernel.FsInodes
import Xv6.Kernel.Console
import Xv6.Kernel.PipeRead
import Xv6.Kernel.Virtio
import Xv6.Theory.Extents
import Xv6.User.Sh
import Xv6.User.Umalloc
import Xv6.Kernel.ExecImage
import Xv6.Kernel.ForkCopy
import Xv6.Kernel.Writers
import Xv6.User.Break
import Xv6.Kernel.DirMap
import Xv6.Kernel.Image
import Xv6.Kernel.PathWalk
import Xv6.Kernel.Reservation
import Xv6.Kernel.Bitmap
import Xv6.Kernel.BufRing
import Xv6.Kernel.InodeSlots
import Xv6.Theory.Lines
import Xv6.User.Grep
import Xv6.User.Ulib
