import BurdahDos.Share.Sharing
import BurdahDos.Share.Locks
import BurdahDos.Share.Slots
import BurdahDos.Memory.Fit
import BurdahDos.Memory.Upper
import BurdahDos.Memory.Change
import BurdahDos.Memory.Release
import BurdahDos.Memory.Link
import BurdahDos.Cache.Ring
import BurdahDos.Fat.Hint
import BurdahDos.File.Content
import BurdahDos.File.Steps
import BurdahDos.File.Walk
import BurdahDos.Path.Canonical
import BurdahDos.Dir.Lost
import BurdahDos.Dir.Rmdir
import BurdahDos.Dir.Find
import BurdahDos.Handle.References
import BurdahDos.Handle.Attrib
import BurdahDos.Handle.Exit
import BurdahDos.Fcbs.Transfer
import BurdahDos.Fcbs.Search
import BurdahDos.Fcbs.Rename
import BurdahDos.Boot.FatType
import BurdahDos.Boot.Clip
import BurdahDos.Boot.Disk
import BurdahDos.Boot.Letters
import BurdahDos.Boot.Request
import BurdahDos.Boot.Geometry
import BurdahDos.Boot.Format
import BurdahDos.Lba.Transfer
import BurdahDos.Console.Stored
import BurdahDos.Shell.For
import BurdahDos.Shell.Undone
import BurdahDos.Shell.Cmdinput
import BurdahDos.Shell.Fillcomp
import BurdahDos.Shell.Rmdir
import BurdahDos.Shell.Ctxt
import BurdahDos.Shell.Which
import BurdahDos.Shell.Pipes
import BurdahDos.Shell.Concat
import BurdahDos.Shell.Alias
import BurdahDos.Shell.Expand
import BurdahDos.Shell.Split
import BurdahDos.Print.Exact
import BurdahDos.Resource.Enumerate
import BurdahDos.Dates.Parse
import BurdahDos.Sys.Copied
import BurdahDos.Sys.Configured
import BurdahDos.Config.Variables
import BurdahDos.Memory.Placed
import BurdahDos.Config.Stores
import BurdahDos.Strings.Validate
import BurdahDos.Listing.Sums
import BurdahDos.Config.Install
import BurdahDos.Shell.Extension
import BurdahDos.Shell.Answers
import BurdahDos.Shell.If
import BurdahDos.Shell.Compare
import BurdahDos.Listing.Descript
import BurdahDos.Listing.Described
import BurdahDos.Listing.Keys
import BurdahDos.Listing.Compared
import BurdahDos.Listing.Sorted
import BurdahDos.Lib.Journal
import BurdahDos.Shell.Del
import BurdahDos.Shell.Deleted
import BurdahDos.Lib.Fixup
import BurdahDos.Exe.Defs
import BurdahDos.Lib.Paged
import BurdahDos.Exe.Flat
import BurdahDos.Exe.Load
import BurdahDos.Lib.Loop
import BurdahDos.Lib.Lines
import BurdahDos.Config.Commands
import BurdahDos.Config.DoConfig
import BurdahDos.Config.InPlace
import BurdahDos.Config.Read
import BurdahDos.Config.Chained
import BurdahDos.Clock.Run
import BurdahDos.Omf.Patch
import BurdahDos.Dates.Shown
