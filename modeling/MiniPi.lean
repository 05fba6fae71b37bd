import MiniPi.Lib.Run
import MiniPi.Lib.Segments
import MiniPi.Lib.Cycle
import MiniPi.Hush.RunList
import MiniPi.Hush.AndOr
import MiniPi.Lmb.Basic
import MiniPi.Lmb.AddRegion
import MiniPi.Lmb.Alloc
import MiniPi.Lmb.Invariant
import MiniPi.Lmb.Highest
import MiniPi.Lmb.Free
import MiniPi.Lmb.Grant
import MiniPi.Lmb.FreeSize
import MiniPi.Env.HashTable
import MiniPi.Env.HashMap
import MiniPi.Env.Create
import MiniPi.Env.Enomem
import MiniPi.Env.Export
import MiniPi.Env.RoundTrip
import MiniPi.Env.ExportBound
import MiniPi.Env.Redundant
import MiniPi.Env.Slre
import MiniPi.Env.Attr
import MiniPi.Env.Lookup
import MiniPi.Env.Flags
import MiniPi.Env.FlagsRun
import MiniPi.Env.Match
import MiniPi.Env.Items
import MiniPi.Env.Selective
import MiniPi.Env.Crlf
import MiniPi.Env.ImportBuffer
import MiniPi.Lib.Keyed
import MiniPi.Uci.Basic
import MiniPi.Uci.Ops
import MiniPi.Uci.Parse
import MiniPi.Uci.Resolve
import MiniPi.Uci.Names
import MiniPi.Uci.Quote
import MiniPi.Uci.Export
import MiniPi.Uci.RoundTrip
import MiniPi.Uci.Lines
import MiniPi.Uci.Buffer
import MiniPi.Uci.Delta
import MiniPi.Uci.Replay
import MiniPi.Uci.Commit
import MiniPi.Uci.Types
import MiniPi.Uci.Show
import MiniPi.Lib.Mem
import MiniPi.Blob.Basic
import MiniPi.Blob.Iterate
import MiniPi.Blob.Build
import MiniPi.Blob.Message
import MiniPi.Blob.Encode
import MiniPi.Blob.RoundTrip
import MiniPi.Blob.Check
import MiniPi.Blob.Parse
import MiniPi.Fat.Entry
import MiniPi.Fat.Cache
import MiniPi.Fat.Dir
import MiniPi.Fat.Create
import MiniPi.Fat.Alias
import MiniPi.Fat.Visits
import MiniPi.Fat.Read
import MiniPi.Fat.Walk
import MiniPi.Fat.LongName
import MiniPi.Fat.Resolve
import MiniPi.Fat.Halting
import MiniPi.Fat.Termination
import MiniPi.Fat.PathMatch
import MiniPi.Ustream.Basic
import MiniPi.Ustream.Fifo
import MiniPi.Ustream.Stream
import MiniPi.Lib.Links
import MiniPi.Net.Defragment
import MiniPi.Net.Holes
import MiniPi.Net.Fragments
import MiniPi.Net.Reassembly
import MiniPi.Net.Delivery
import MiniPi.Net.Hostile
import MiniPi.Charset.Basic
import MiniPi.Charset.RoundTrip
import MiniPi.Charset.Bound
import MiniPi.Charset.Surrogates
import MiniPi.Membuff.Basic
import MiniPi.Membuff.Fifo
import MiniPi.Membuff.Line
import MiniPi.Membuff.Queue
import MiniPi.Efi.Basic
import MiniPi.Efi.Carve
import MiniPi.Efi.Merge
import MiniPi.Efi.Map
import MiniPi.Efi.Pages
import MiniPi.Efi.Refuse
import MiniPi.Efi.Keep
import MiniPi.Efi.Allocate
import MiniPi.Ymodem.Basic
import MiniPi.Ymodem.Header
import MiniPi.Ymodem.Sender
import MiniPi.Ymodem.Receive
import MiniPi.Ymodem.Hostile
import MiniPi.Tftp.Basic
import MiniPi.Tftp.Download
import MiniPi.Tftp.Upload
import MiniPi.Sparse.Basic
import MiniPi.Sparse.Image
import MiniPi.Sparse.Expand
import MiniPi.Blkcache.Basic
import MiniPi.Blkcache.Transparent
import MiniPi.Ext4.Basic
import MiniPi.Ext4.Extents
import MiniPi.Ext4.BlockMap
import MiniPi.Ext4.Bitmap
import MiniPi.Ext4.Alloc
import MiniPi.Ext4.AllocSound
import MiniPi.Ext4.Journal.Basic
import MiniPi.Ext4.Journal.Log
import MiniPi.Ext4.Journal.Recover
import MiniPi.Ext4.Journal.Replay
import MiniPi.Ext4.Journal.Circular
import MiniPi.Vlist.Basic
import MiniPi.Vlist.Tree
import MiniPi.Vlist.Cycle
import MiniPi.Vlist.Dups
import MiniPi.FwEnv.Basic
import MiniPi.FwEnv.Write
import MiniPi.Lib.Blocks
import MiniPi.FwEnv.Flash
import MiniPi.FwEnv.FlashWrite
import MiniPi.FwEnv.FlashLoss
import MiniPi.Gpt.Fill
import MiniPi.Gpt.Parse
import MiniPi.Gpt.Safe
import MiniPi.Hush.Parse
import MiniPi.Hush.Outer
import MiniPi.Hush.Quote
import MiniPi.Hush.Loss
import MiniPi.Hush.Expand
import MiniPi.Hush.Argument
import MiniPi.Lib.Descent
import MiniPi.Part.Devread
import MiniPi.Part.Dos
import MiniPi.Part.DosAgree
import MiniPi.Ext4.ReadFile
import MiniPi.Cli.Readline
import MiniPi.Printf.Digits
import MiniPi.Printf.Number
import MiniPi.Printf.Format
import MiniPi.Ext4.Directory
import MiniPi.Ext4.Lookup
import MiniPi.Uloop.Timeout
import MiniPi.Sparse.Partition
import MiniPi.Sample.DoubleLinkList
import MiniPi.Cli.History
import MiniPi.Cli.Editor
import MiniPi.Uloop.Runqueue
import MiniPi.Uloop.Fd
import MiniPi.Uloop.ListHead
import MiniPi.Uloop.Process
import MiniPi.Uloop.SafeList
import MiniPi.Uloop.SafeForEach
import MiniPi.Lib.Writes
import MiniPi.Gpt.Write
import MiniPi.Gpt.RoundTrip
import MiniPi.Gpt.Restore
import MiniPi.Gpt.Verify
import MiniPi.Gpt.Uuid
import MiniPi.Gpt.Copies
import MiniPi.Hush.Compound
import MiniPi.Hush.Simulate
import MiniPi.Hush.Script
import MiniPi.Hush.Command
import MiniPi.Hush.Vars
import MiniPi.FwEnv.Redundant
