import Xv6.Lib.Outcome
import Xv6.Lib.ArrayVec
import Xv6.Lib.Writes
import Xv6.Lib.Bytes
import Xv6.Lib.Hoare
import Xv6.Param
import Xv6.SleepLock
import Xv6.Buf
import Xv6.File
import Xv6.Syscall
import Xv6.Vm
import Xv6.Sbrk
import Xv6.Log
import Xv6.LogDisk
import Xv6.LogCache
import Xv6.Fs.Layout
import Xv6.Fs.Inode
import Xv6.Fs.Dir
import Xv6.Fs.Sysfile
import Xv6.Fs.Transactions
import Xv6.Proc
import Xv6.SleepWakeup
import Xv6.Lib.Ring
import Xv6.Pipe
import Xv6.IdeQueue
import Xv6.Fs.ICache
import Xv6.Fs.Content
import Xv6.Strings
import Xv6.Console
import Xv6.Umalloc
import Xv6.Keyboard
import Xv6.Spinlock
import Xv6.FileClose
import Xv6.CopyOut
import Xv6.Fs.BlockPort
import Xv6.Boot
import Xv6.Fs.Path
import Xv6.Lib.Ends
import Xv6.Fs.ReadWrite
import Xv6.Fs.Room
import Xv6.PageTable
import Xv6.MapPages
import Xv6.UvmDealloc
import Xv6.Sh.Lex
import Xv6.Sh.Parse
import Xv6.Sh.Grammar
import Xv6.MapFresh
import Xv6.KvmSetup
import Xv6.UvmCopy
import Xv6.UserMem
import Xv6.Fs.DirOps
import Xv6.Lib.Pattern
import Xv6.Grep.Match
import Xv6.Grep.Lines
import Xv6.Fs.Trunc
