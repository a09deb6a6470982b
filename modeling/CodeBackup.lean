import CodeBackup.Battery.Cycles
import CodeBackup.Battery.Filter
import CodeBackup.Battery.Monotone
import CodeBackup.Battery.Restore
import CodeBackup.Battery.Settle
import CodeBackup.Echo.Faults
import CodeBackup.Echo.Progress
import CodeBackup.Echo.Runs
import CodeBackup.Leak.Report
import CodeBackup.Property.Command
import CodeBackup.Property.Compact
import CodeBackup.Property.Depth
import CodeBackup.Property.Ending
import CodeBackup.Property.Fallback
import CodeBackup.Property.Inside
import CodeBackup.Property.LoadAll
import CodeBackup.Property.LockRuns
import CodeBackup.Property.NameGrammar
import CodeBackup.Property.ReadOnly
import CodeBackup.Property.Pools
import CodeBackup.Property.Reference
import CodeBackup.Property.Release
import CodeBackup.Property.Roundtrip
import CodeBackup.Property.Screen
import CodeBackup.Property.Shared
import CodeBackup.Property.Stuck
import CodeBackup.Rbtree.Augment
import CodeBackup.Property.Reboot
